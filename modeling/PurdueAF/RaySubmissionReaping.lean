import PurdueAF.RaySubmissionNames

/-!
# The reaper and the submissions it may not touch

A pass deletes a RayJob that has no jobId, or whose head does not know its job, once it is
`2 * START_TIMEOUT_S` old. A head may take START_TIMEOUT_S to start and its RayJob may then
wait as long for its submission, so that a submission can hold one of that age: the reaper
spares it only if the pass comes before or after.
-/
namespace PurdueAF.RaySubmissions
open Ray RayNaming Coroutine

/-- The job ended, and its record was kept long enough. -/
def RayJob.over (now : ℤ) (j : RayJob) : Bool :=
  ended j.status && j.endTime.any fun e => jobRecordS ≤ now - e

/-- The reaper deletes no RayJob of a submission before that. -/
def Spares (s : St) (act : Act) : Prop :=
  ∀ name, .reaps name ∈ program.emits s act → name ∈ s.mem.serving →
    ∀ job, s.world.jobs.get? (.purdue, name) = some job → job.over s.world.now = true

def old (p : Pass) (job : RayJob) : Bool := 2 * startTimeoutS ≤ p.now - job.created

/-- What a pass deletes without asking any further. -/
def doomed (p : Pass) (e : String × RayJob) : Bool :=
  !e.2.deleting &&
    if e.2.jobId.isNone then e.1 ∉ p.waited && old p e.2
    else e.2.status = .new && e.2.head.isNone && decide (jobRecordS ≤ p.now - e.2.created)

/-- The RayJob that a submission takes as it goes on. -/
def taken (w : World) (g : Gateway) : Pc → Answer → Option String
  | .openHead j _, .bool false => if j.asked.isSome then some j.name else none
  | .before r asked .purdue, .jobs listed =>
    if g.nrp || listed.any fun e => e.2.owner = owned r.user && e.2.jobId = some asked then none
    else (fitting w g r).map Waiting.name
  | .nrpBefore r asked .purdue, .jobs listed =>
    if listed.any fun e => e.2.jobId = some asked then none
    else (fitting w g r).map Waiting.name
  | .nrpBefore r _ .purdue, _ => (fitting w g r).map Waiting.name
  | _, _ => none

/-- When each pass was given its listing. -/
abbrev Listings := Dict ℕ ℤ

def Listings.note (h : Listings) (s : St) : Act → Listings
  | .serve t _ =>
    match s.at t with
    | some ⟨.list, none⟩ => Dict.set h t s.world.now
    | _ => h
  | _ => h

/-- A listed RayJob is young: it has its jobId before it is `2 * START_TIMEOUT_S` old, with `d`
to spare, and with that a cluster or a status before its record would be deleted. -/
def young (d now : ℤ) (job : RayJob) : Bool :=
  if job.jobId.isNone then decide (now - job.created < 2 * startTimeoutS - d)
  else job.status ≠ .new || job.head.isSome || decide (now - job.created < jobRecordS - d)

/-- A submission takes `n` while it is young, should a pass have listed it without a jobId. -/
def takesYoung (d now : ℤ) (n : String) (th : Suspended Pc Answer) : Bool :=
  match th.pc, th.reply with
  | .list, some (.jobs listed) => listed.all fun e =>
    e.1 ≠ n || e.2.jobId.isSome || decide (now - e.2.created < 2 * startTimeoutS - d)
  | pc, _ => pc.pass.all fun p => p.rest.all fun e =>
    e.1 ≠ n || e.2.jobId.isSome || decide (e.1 ∈ p.waited) ||
      decide (now - e.2.created < 2 * startTimeoutS)

/-- A pass takes up its listing within `d`. When it is given it, the RayJobs of submissions in
it are young, and a submission takes none later that is not. When a pass asks after a RayJob
of a submission, its cluster is up once it is JOB_RECORD_S old, and its head knows the job
once it is `2 * START_TIMEOUT_S` old. -/
def timely (d : ℤ) (h : Listings) (s : St) : Act → Bool
  | .serve t c =>
    match s.at t with
    | some ⟨.list, none⟩ =>
      s.world.listing.all fun e => e.1 ∉ s.mem.serving || young d s.world.now e.2
    | some ⟨.cluster name job head _ _, none⟩ =>
      c ≠ .ok || name ∉ s.mem.serving || decide (s.world.now - job.created < jobRecordS) ||
        (s.world.heads.get? head).isSome
    | some ⟨.headJob name job head id _, none⟩ =>
      c ≠ .ok || name ∉ s.mem.serving || decide (s.world.now - job.created < 2 * startTimeoutS) ||
        (s.world.heads.get? head).any fun jobs => (jobs.get? id).isSome
    | _ => true
  | .resume t =>
    match s.at t with
    | some ⟨.list, some (.jobs _)⟩ => (Dict.get? h t).all fun read => s.world.now - read ≤ d
    | some ⟨pc, some a⟩ =>
      (taken s.world s.mem pc a).all fun n => s.suspended.all (takesYoung d s.world.now n)
    | _ => true
  | _ => true

def Timely (d : ℤ) (h : Listings) (s : St) (act : Act) : Prop := timely d h s act = true

instance (d : ℤ) (h : Listings) (s : St) (act : Act) : Decidable (Timely d h s act) :=
  inferInstanceAs (Decidable (timely d h s act = true))

/-- How the job of a listed RayJob ended is what the RayJob still says. -/
def Final (w : World) (e : String × RayJob) : Prop :=
  e.2.jobId ≠ none → ended e.2.status = true → ∀ j, w.jobs.get? (.purdue, e.1) = some j →
    j.status = e.2.status ∧ ∀ x, e.2.endTime = some x → j.endTime = some x

/-- What a pass knows of the RayJobs it listed and of the one it is at. -/
structure Watched (w : World) (g : Gateway) (pc : Pc) (reply : Option Answer) : Prop where
  final : ∀ e ∈ pc.listed reply, Final w e
  now : ∀ p, pc.pass = some p → p.now ≤ w.now
  spared : ∀ p, pc.pass = some p → ∀ e ∈ p.rest, e.1 ∈ g.serving → doomed p e = false
  cluster : ∀ name job head id p, pc = .cluster name job head id p → job.jobId ≠ none ∧
    (reply = some (.bool false) → name ∈ g.serving → ¬jobRecordS ≤ p.now - job.created)
  headJob : ∀ name job head id p, pc = .headJob name job head id p → job.jobId ≠ none ∧
    (reply = some (.headJob none) → name ∈ g.serving → old p job = false)
  free : ∀ name job p, pc = .free name job true p → job.jobId ≠ none ∧ ended job.status = true

variable {w w' : World} {g g' : Gateway} {pc pc' : Pc} {a : Answer} {r : Step} {d : ℤ}
  {h₀ : Listings}

/-- A RayJob whose jobId a pass has seen is not created again. -/
theorem Final.changes {x : Option Write} {e : String × RayJob} (h : Final w e)
    (hc : Changes w x w') (hx : ∀ y, x = some y → Allowed g y) (hg : e.2.jobId ≠ none → e.1 ∈ g.given) :
    Final w' e := by
  intro hi he j' hj'
  rcases hc.jobs _ j' hj' with ⟨j, hj, hk⟩ | ⟨job, rfl, -, -⟩
  · obtain ⟨hst, hend⟩ := h hi he j hj
    have hended : ended j.status = true := by rw [hst]; exact he
    exact ⟨(hk.status hended).trans hst, fun x hx => hk.endTime hended x (hend x hx)⟩
  · exact absurd (hg hi) (hx _ rfl).2.2.1

theorem Watched.changes {reply : Option Answer} {x : Option Write} (h : Watched w g pc reply)
    (hh : Holder w g pc reply) (hc : Changes w x w') (hx : ∀ y, x = some y → Allowed g y) :
    Watched w' g pc reply :=
  ⟨fun e he => (h.final e he).changes hc hx (hh.listed e he),
    fun p hp => (h.now p hp).trans hc.now, h.spared, h.cluster, h.headJob, h.free⟩

/-- A submission that takes `n` leaves a pass that does not delete it undisturbed. -/
theorem Watched.taken {reply : Option Answer} (h : Watched w g pc reply) (hh : Holder w g pc reply)
    {n : Option String} (hs : ∀ m ∈ g'.serving, m ∈ g.serving ∨ n = some m)
    (hn : ∀ m, n = some m → m ∉ g.given)
    (hd : ∀ m, n = some m → ∀ p, pc.pass = some p → ∀ e ∈ p.rest, e.1 = m → doomed p e = false) :
    Watched w g' pc reply := by
  have hseen {e : String × RayJob} (he : e ∈ pc.listed reply) (hi : e.2.jobId ≠ none)
      (hm : e.1 ∈ g'.serving) : e.1 ∈ g.serving :=
    (hs e.1 hm).resolve_right fun heq => hn e.1 heq (hh.listed e he hi)
  refine ⟨h.final, h.now, fun p hp e he hm => ?_, fun name job head id p hpc => ?_,
    fun name job head id p hpc => ?_, h.free⟩
  · rcases hs e.1 hm with hm | heq
    · exact h.spared p hp e he hm
    · exact hd e.1 heq p hp e he rfl
  · obtain ⟨hi, hb⟩ := h.cluster name job head id p hpc
    refine ⟨hi, fun hr hm => hb hr (hseen (e := (name, job)) ?_ hi hm)⟩
    rw [hpc]
    exact List.mem_cons_self
  · obtain ⟨hi, hb⟩ := h.headJob name job head id p hpc
    refine ⟨hi, fun hr hm => hb hr (hseen (e := (name, job)) ?_ hi hm)⟩
    rw [hpc]
    exact List.mem_cons_self

theorem Watched.blank {reply : Option Answer} (hl : pc.listed reply = []) (hp : pc.pass = none) :
    Watched w g pc reply := by
  refine ⟨by simp [hl], by simp [hp], by simp [hp], fun _ _ _ _ _ h => ?_, fun _ _ _ _ _ h => ?_,
    fun _ _ _ h => ?_⟩
  all_goals
    rw [h] at hp
    cases hp

theorem Nexts.watched {p : Pass} (h : Nexts p pc) (hf : ∀ e ∈ p.rest, Final w e) (hn : p.now ≤ w.now)
    (hs : ∀ e ∈ p.rest, e.1 ∈ g.serving → doomed p e = false) : Watched w g pc none := by
  have hl := h.listed
  obtain ⟨name, job, rest, hsuf, _, hc⟩ := h
  have hrest (e : String × RayJob) (he : e ∈ rest) : e ∈ p.rest :=
    hsuf.subset (List.mem_cons_of_mem _ he)
  have hpass (q : Pass) (hq : pc.pass = some q) : q = ⟨p.now, p.waited, rest⟩ := by
    cases hc <;> cases hq <;> rfl
  refine ⟨fun e he => hf e (hl e he), fun q hq => ?_, fun q hq e he hm => ?_, ?_, ?_, ?_⟩
  · rw [hpass q hq]
    exact hn
  · rw [hpass q hq] at he ⊢
    exact hs e (hrest e he) hm
  · rintro _ _ _ _ _ rfl
    cases hc with
    | cluster head id hi => exact ⟨by simp [hi], by simp⟩
  · rintro _ _ _ _ _ rfl
    cases hc
  · rintro _ _ _ rfl
    cases hc with
    | free hi he => exact ⟨hi, he⟩

theorem Watched.own_served {s : St} {t : ℕ} {c : Choice} (hcond : Timely d h₀ s (.serve t c))
    (ht : s.at t = some ⟨pc, none⟩) (hv : serve s.world pc c = some (w', a))
    (h : Watched s.world s.mem pc none) (hh : Holder s.world s.mem pc none) :
    Watched w' s.mem pc (some a) := by
  obtain ⟨hserves, hreplies⟩ := serve_serves hv
  have hw := h.changes hh hserves.changes fun y hy => hh.allowed hy
  refine ⟨fun e he => ?_, hw.now, hw.spared, fun name job head id p hpc => ?_,
    fun name job head id p hpc => ?_, hw.free⟩
  · cases pc with
    | list =>
      cases a with
      | jobs jobs =>
        obtain ⟨rfl, ⟨hjobs, -⟩ | ⟨said, hbad⟩ | hbad⟩ := reading_eq hv
        · cases hjobs
          intro _ _ j hj
          rw [mem_at he] at hj
          obtain rfl := Option.some.inj hj
          exact ⟨rfl, fun _ hx => hx⟩
        · cases hbad
        · cases hbad
      | _ => simp [Pc.listed] at he
    | _ => exact hw.final e he
  · subst hpc
    refine ⟨(h.cluster name job head id p rfl).1, fun hr hm hage => ?_⟩
    obtain rfl := Option.some.inj hr
    obtain ⟨rfl, ⟨hup, rfl⟩ | ⟨said, hbad⟩ | hbad⟩ := reading_eq (getting_eq hv)
    · have hnow := h.now p rfl
      have hlate : ¬s.world.now - job.created < jobRecordS := by omega
      simp only [Timely, timely, ht, ne_eq, not_true_eq_false, decide_false, hm, hlate,
        Bool.false_or] at hcond
      rw [hcond] at hup
      cases hup
    · cases hbad
    · cases hbad
  · subst hpc
    refine ⟨(h.headJob name job head id p rfl).1, fun hr hm => ?_⟩
    obtain rfl := Option.some.inj hr
    cases hreplies with
    | silent _ _ _ hno => exact absurd rfl hno
    | headJob _ _ _ _ _ jobs hd hj =>
      obtain rfl : c = .ok := by
        simp only [serve, hd] at hv
        split at hv <;> first | rfl | cases hv
      by_contra hage
      simp only [old, Bool.not_eq_false, decide_eq_true_eq] at hage
      have hnow := h.now p rfl
      have hlate : ¬s.world.now - job.created < 2 * startTimeoutS := by omega
      simp [Timely, timely, ht, hm, hlate, hd, hj] at hcond

/-- No RayJob of a submission is deleted unasked by a pass that takes up its listing. -/
def Unharmed (w : World) (g : Gateway) (pc : Pc) (a : Answer) : Prop :=
  ∀ listed, pc = .list → a = .jobs listed → ∀ e ∈ listed, e.1 ∈ g.serving →
    doomed ⟨w.now, waitedFor w g, listed⟩ e = false

theorem Watched.next {s : St} (hun : Unharmed s.world s.mem pc a)
    (h : Watched s.world s.mem pc (some a)) (hl : Leads s.world s.mem pc a g' pc') : Watched s.world g' pc' none := by
  have hstays {p : Pass} (hp : pc.pass = some p) (hp' : pc'.pass = some p)
      (hf : ∀ e ∈ pc'.listed none, Final s.world e) (hnc : ∀ name job head id p, pc' ≠ .cluster name job head id p)
      (hhj : ∀ name job head id p, pc' = .headJob name job head id p → job.jobId ≠ none)
      (hfr : ∀ name job p, pc' ≠ .free name job true p) : Watched s.world s.mem pc' none := by
    refine ⟨hf, fun q hq => ?_, fun q hq => ?_, fun name job head id p hpc => absurd hpc (hnc name job head id p),
      fun name job head id p hpc => ⟨hhj name job head id p hpc, by simp⟩,
      fun name job p hpc => absurd hpc (hfr name job p)⟩
    · obtain rfl := Option.some.inj (hq.symm.trans hp')
      exact h.now _ hp
    · obtain rfl := Option.some.inj (hq.symm.trans hp')
      exact h.spared _ hp
  have hfinal (e : String × RayJob) (he : e ∈ pc'.listed none) : Final s.world e :=
    h.final e (hl.listed e he)
  cases hl with
  | pass listed _ hn =>
    exact hn.watched (fun e he => h.final e he) le_rfl (hun listed rfl rfl)
  | headJob name job head id p =>
    refine hstays rfl rfl hfinal (by simp) ?_ (by simp)
    rintro _ _ _ _ _ ⟨⟩
    exact (h.cluster name job head id p rfl).1
  | unfollowed | unknown | frees | record =>
    exact hstays rfl rfl hfinal (by simp) (by simp) (by simp)
  | passes _ _ p hp _ hn =>
    exact hn.watched (fun e he => h.final e (Pc.rest_listed hp _ e he)) (h.now p hp) (h.spared p hp)
  | upload _ _ _ _ htk | takes _ _ _ _ _ _ _ htk =>
    cases htk with
    | waits _ _ _ _ hu =>
      cases hu
      exact .blank rfl rfl
    | draws => exact .blank rfl rfl
  | uses j _ _ _ hu =>
    generalize j.asked = asked at hu
    cases hu <;> exact .blank rfl rfl
  | polls j _ _ _ _ h' => cases pc' <;> cases h' <;> exact .blank rfl rfl
  | _ => exact .blank rfl rfl

theorem Uses.serving {r : Request} {x : Waiting} {asked : Option String}
    (h : Uses g r x asked g' pc') (m : String) (hm : m ∈ g'.serving) :
    m ∈ g.serving ∨ asked.isSome = true ∧ m = x.name := by
  cases h with
  | upload => exact .inl hm
  | submit id => exact (List.mem_cons.mp hm).symm.imp_right fun heq => ⟨rfl, heq⟩

theorem Passed.taken {r : Request} {asked : String} (h : Passed g r asked .purdue pc a) :
    taken w g pc a = (fitting w g r).map Waiting.name := by
  cases h with
  | purdue listed hn hno =>
    have hany : (listed.any fun e => e.2.owner = owned r.user && e.2.jobId = some asked) = false := by
      rw [List.any_eq_false]
      intro e he
      simpa using hno e he
    simp [RaySubmissions.taken, hn, hany]
  | nrp _ hno =>
    cases a with
    | jobs listed =>
      have hany : (listed.any fun e => e.2.jobId = some asked) = false := by
        rw [List.any_eq_false]
        intro e he
        simpa using hno listed rfl e he
      simp [RaySubmissions.taken, hany]
    | _ => rfl

/-- Only the RayJob a submission takes is served from then on. -/
theorem Leads.serving (h : Leads w g pc a g' pc') (m : String) (hm : m ∈ g'.serving) :
    m ∈ g.serving ∨ taken w g pc a = some m := by
  cases h with
  | upload r _ _ _ ht =>
    cases ht with
    | waits x hx _ _ hu => exact (hu.serving m hm).imp id fun hs => by simp at hs
    | draws => exact .inl hm
  | takes r asked _ _ hp _ _ ht =>
    cases ht with
    | waits x hx _ _ hu =>
      refine (hu.serving m hm).imp id fun hs => ?_
      rw [hp.taken, hx, hs.2]
      rfl
    | draws => exact .inl hm
  | uses j head _ _ hu =>
    refine (hu.serving m hm).imp id fun hs => ?_
    simp [taken, hs.1, hs.2]
  | package _ _ _ hn | nrpBody _ _ _ _ _ hn => cases hn <;> exact .inl hm
  | unpatched | deleteRecord => exact .inl (List.mem_filter.mp hm).1
  | _ => exact .inl hm

theorem taken_not_given {m : String} (h : taken w g pc a = some m) (hn : Named w g)
    (hh : Holder w g pc (some a)) : m ∉ g.given := by
  have hwait {r : Request} (hf : (fitting w g r).map Waiting.name = some m) : m ∉ g.given := by
    obtain ⟨x, hx, rfl⟩ := Option.map_eq_some_iff.mp hf
    exact (hn.waiting r.cluster x (fitting_eq hx)).2
  unfold taken at h
  split at h
  · rename_i j head
    split_ifs at h
    cases h
    exact (hh.started j rfl).2.1
  · split_ifs at h
    exact hwait h
  · split_ifs at h
    exact hwait h
  · exact hwait h
  · cases h

/-- Since a pass was given its listing, it shows the RayJobs of submissions young. -/
def Shown (d : ℤ) (h : Listings) (s : St) : Prop :=
  ∀ t listed, s.at t = some ⟨.list, some (.jobs listed)⟩ → ∃ read, Dict.get? h t = some read ∧
    read ≤ s.world.now ∧ ∀ e ∈ listed, e.1 ∈ s.mem.serving → young d read e.2 = true

theorem young_of_taken {now read : ℤ} {n : String} {listed : List (String × RayJob)}
    (h : takesYoung d now n ⟨.list, some (.jobs listed)⟩ = true) (hle : read ≤ now)
    {e : String × RayJob} (he : e ∈ listed) (hn : e.1 = n) (hi : e.2.jobId = none) :
    young d read e.2 = true := by
  have hlt := List.all_eq_true.mp h e he
  simp only [hn, hi, ne_eq, not_true_eq_false, decide_false, Option.isSome_none, Bool.false_or,
    decide_eq_true_eq] at hlt
  rw [young, hi, if_pos (by rfl)]
  exact decide_eq_true (by omega)

/-- A RayJob that a submission takes, as another coroutine's pass sees it. -/
theorem Timely.takes {s : St} {t j : ℕ} {th : Suspended Pc Answer} {n : String}
    (hcond : Timely d h₀ s (.resume t)) (ht : s.at t = some ⟨pc, some a⟩)
    (hn : taken s.world s.mem pc a = some n) (hj : s.at j = some th) :
    takesYoung d s.world.now n th = true := by
  have hlist : pc ≠ .list := by
    rintro rfl
    simp [taken] at hn
  simp only [Timely, timely, ht] at hcond
  split at hcond
  · rename_i heq
    cases heq
    exact absurd rfl hlist
  · rename_i heq
    cases heq
    simp only [hn, Option.all_some, List.all_eq_true] at hcond
    exact hcond th (mem_suspended.mpr ⟨j, hj⟩)
  · rename_i hne
    exact absurd rfl (hne pc a)

theorem shown_step {s s' : St} {act : Act} (h : Shown d h₀ s) (hnames : Names s)
    (hc : Timely d h₀ s act) (hs : program.step s act = some s') :
    Shown d (h₀.note s act) s' := by
  intro t listed ht
  cases act with
  | call i =>
    obtain ⟨r, hr, rfl⟩ := Program.step_call hs
    have hmem := (start_cases (w := s.world) hr).2.2
    rw [at_append] at ht
    split_ifs at ht
    · have hreply := (suspend_eq_some ht).2
      cases hreply
    · rw [hmem]
      exact h t listed ht
  | serve j c =>
    obtain ⟨pc, w, a, hj, hv, rfl⟩ := Program.step_serve hs
    have hnow := (serve_serves hv).1.changes.now
    rw [at_set s _ _ j t _ (by simp [hj])] at ht
    split_ifs at ht with htj
    · cases ht
      subst htj
      obtain ⟨rfl, ⟨hjobs, -⟩ | ⟨said, hbad⟩ | hbad⟩ := reading_eq hv
      · cases hjobs
        refine ⟨s.world.now, by simp [Listings.note, hj], le_rfl, fun e he hm => ?_⟩
        simp only [Timely, timely, hj, List.all_eq_true, Bool.or_eq_true] at hc
        exact (hc e he).resolve_left (by simpa using hm)
      · cases hbad
      · cases hbad
    · obtain ⟨read, hread, hle, hyoung⟩ := h t listed ht
      refine ⟨read, ?_, hle.trans hnow, hyoung⟩
      simp only [Listings.note]
      split
      · rw [Dict.get?_set_ne _ _ (Ne.symm htj)]
        exact hread
      · exact hread
  | resume j =>
    obtain ⟨pc, a, r, hj, hr, rfl⟩ := Program.step_resume hs
    rw [at_set s _ _ j t _ (by simp [hj])] at ht
    split_ifs at ht with htj
    · have hreply := (suspend_eq_some ht).2
      cases hreply
    · obtain ⟨read, hread, hle, hyoung⟩ := h t listed ht
      refine ⟨read, hread, hle, fun e he hm => ?_⟩
      have hres : Resumes s.world s.mem pc a r := resume_resumes hr
      cases hnx : r.next with
      | none => exact hyoung e he ((hres.quits hnx).serving _ hm)
      | some pc₁ =>
        rcases (hres.next pc₁ hnx).serving _ hm with hold | hnew
        · exact hyoung e he hold
        · -- What a submission takes has no jobId, and no listing gives it one.
          have hgiven := taken_not_given hnew hnames.holds.shared (hnames.holds.each j _ hj)
          have hid : e.2.jobId = none := by
            by_contra hi
            exact hgiven ((hnames.holds.each t _ ht).listed e he hi)
          exact young_of_taken (hc.takes hj hnew ht) hle he rfl hid
  | env e =>
    obtain ⟨w, g, he, rfl⟩ := Program.step_env hs
    obtain ⟨rfl, hhap⟩ := env_happens he
    obtain ⟨x, hch, -⟩ := hhap.changes
    obtain ⟨read, hread, hle, hyoung⟩ := h t listed ht
    exact ⟨read, hread, hle.trans hch.now, hyoung⟩

/-- What is young when the listing is read is not too old when the pass takes it up. -/
theorem Shown.unharmed {s : St} {t : ℕ} (h : Shown d h₀ s) (hc : Timely d h₀ s (.resume t))
    (ht : s.at t = some ⟨pc, some a⟩) : Unharmed s.world s.mem pc a := by
  rintro listed rfl rfl e he hm
  obtain ⟨read, hread, -, hyoung⟩ := h t listed ht
  have hfresh : s.world.now - read ≤ d := by
    simpa [Timely, timely, ht, hread] using hc
  have hy := hyoung e he hm
  unfold young at hy
  unfold doomed old
  split_ifs at hy ⊢ with hi
  · have hlt := of_decide_eq_true hy
    have hold : ¬2 * startTimeoutS ≤ s.world.now - e.2.created := by omega
    simp [hold]
  · simp only [Bool.or_eq_true, decide_eq_true_eq] at hy
    rcases hy with (hst | hhead) | hlt
    · simp [hst]
    · have hno : e.2.head.isNone = false := by simpa using hhead
      simp [hno]
    · have hold : ¬jobRecordS ≤ s.world.now - e.2.created := by omega
      simp [hold]

structure Reaping (d : ℤ) (h : Listings) (s : St) : Prop where
  names : Names s
  shown : Shown d h s
  holds : Holds (fun _ _ => True) Watched s

theorem reaping_step (h₀ : Listings) (s : St) (act : Act) (s' : St) (h : Reaping d h₀ s)
    (hc : Timely d h₀ s act) (hs : program.step s act = some s') :
    Reaping d (h₀.note s act) s' := by
  refine ⟨names_step s act s' h.names hs, shown_step h.shown h.names hc hs, ?_⟩
  have hhold := h.names.holds.each
  refine Holds.move ?_ ?_ ?_ ?_ h.holds hs
  · rintro i r rfl hr
    have hmem := (start_cases (w := s.world) hr).2.2
    refine ⟨trivial, fun pc hn => ?_, fun t pc a _ hh => ?_⟩
    · rcases (start_cases (w := s.world) hr).1 with hnone | ⟨pc', hp, hcases⟩
      · simp [hnone] at hn
      · obtain rfl : pc' = pc := Option.some.inj (hp.symm.trans hn)
        rcases hcases with ⟨_, rfl⟩ | ⟨_, rfl⟩ | ⟨_, _, _, rfl⟩ | rfl <;> exact .blank rfl rfl
    · rw [hmem]
      exact ⟨hh.final, hh.now, hh.spared, hh.cluster, hh.headJob, hh.free⟩
  · rintro t c pc w a rfl ht hv
    refine ⟨trivial, (h.holds.each t _ ht).own_served hc ht hv (hhold t _ ht),
      fun j pc' a' _ hj hh => ?_⟩
    exact hh.changes (hhold j _ hj) (serve_serves hv).1.changes fun y hy => (hhold t _ ht).allowed hy
  · rintro t pc a r rfl ht hr
    have hres : Resumes s.world s.mem pc a r := resume_resumes hr
    cases hnx : r.next with
    | none =>
      have hq := hres.quits hnx
      refine ⟨trivial, by simp, fun j pc' a' _ hj hh => ?_⟩
      exact hh.taken (n := none) (hhold j _ hj) (fun m hm => .inl (hq.serving m hm)) (by simp) (by simp)
    | some pc₁ =>
      have hl := hres.next pc₁ hnx
      refine ⟨trivial, fun pc' hp => ?_, fun j pc' a' _ hj hh => ?_⟩
      · obtain rfl := Option.some.inj hp
        exact (h.holds.each t _ ht).next (h.shown.unharmed hc ht) hl
      · have hgiven (m : String) (hm : taken s.world s.mem pc a = some m) : m ∉ s.mem.given :=
          taken_not_given hm h.names.holds.shared (hhold t _ ht)
        refine hh.taken (hhold j _ hj) hl.serving hgiven fun m hm p hp e he heq => ?_
        have hid : e.2.jobId = none := by
          by_contra hi
          exact hgiven m hm (heq ▸ (hhold j _ hj).listed e (Pc.rest_listed hp _ e he) hi)
        have hyoung := hc.takes ht hm hj
        have hnow := hh.now p hp
        have hrest : e.1 ∈ p.waited ∨ s.world.now - e.2.created < 2 * startTimeoutS := by
          unfold takesYoung at hyoung
          split at hyoung
          · rename_i hpc _
            rw [show pc' = Pc.list from hpc] at hp
            cases hp
          · rw [hp, Option.all_some, List.all_eq_true] at hyoung
            simpa [heq, hid] using hyoung e he
        rcases hrest with hw | hlt
        · simp [doomed, hid, hw]
        · have hold : ¬2 * startTimeoutS ≤ p.now - e.2.created := by omega
          simp [doomed, old, hid, hold]
  · rintro e w g rfl he
    obtain ⟨rfl, hhap⟩ := env_happens he
    obtain ⟨x, hch, hx⟩ := hhap.changes
    refine ⟨trivial, fun t pc a ht hh => ?_⟩
    exact hh.changes (hhold t _ ht) hch fun y hy => h.names.holds.shared.late y (hx y hy)

theorem reaping_initial (d : ℤ) (nrp : Bool) (st : Standing) : Reaping d [] (initial nrp st) := by
  have hat (t : ℕ) : State.at (initial nrp st) t = none := by simp [State.at, initial]
  exact ⟨names_initial nrp st, by simp [Shown, hat], trivial, by simp [hat]⟩

theorem Checks.doomed {name n : String} {job : RayJob} {p q : Pass}
    (h : Checks name job p (.delete n q)) : n = name ∧ doomed p (name, job) = true := by
  cases h with
  | unsubmitted hd hi hw ha =>
    refine ⟨rfl, ?_⟩
    simp [RaySubmissions.doomed, hd, hi, hw, old, ha]
  | unfollowed hd hi hs hh ha =>
    refine ⟨rfl, ?_⟩
    simp [RaySubmissions.doomed, hd, hi, hs, hh, ha]

/-- A pass deletes the next RayJob of its listing: no submission holds it. -/
theorem Nexts.spares {n : String} {p q : Pass} (h : Nexts p (.delete n q))
    (hs : ∀ e ∈ p.rest, e.1 ∈ g.serving → doomed p e = false) : n ∉ g.serving := by
  obtain ⟨name, job, rest, hsuf, _, hc⟩ := h
  obtain ⟨rfl, hd⟩ := hc.doomed
  intro hm
  have hno := hs (n, job) (hsuf.subset List.mem_cons_self) hm
  rw [show doomed p (n, job) = true from hd] at hno
  cases hno

/-- On what grounds a pass deletes a RayJob. -/
theorem Watched.spares {s : St} {n : String} {q : Pass} (hun : Unharmed s.world s.mem pc a)
    (h : Watched s.world s.mem pc (some a))
    (hl : Leads s.world s.mem pc a g' (.delete n q)) (hm : n ∈ s.mem.serving) (job : RayJob)
    (hj : s.world.jobs.get? (.purdue, n) = some job) : job.over s.world.now = true := by
  cases hl with
  | pass listed _ hn =>
    exact absurd hm (hn.spares (hun listed rfl rfl))
  | passes _ _ p hp _ hn => exact absurd hm (hn.spares (h.spared p hp))
  | unfollowed _ job' head id p ha =>
    exact absurd ha ((h.cluster n job' head id _ rfl).2 rfl hm)
  | unknown _ job' head id p ha =>
    have hno := (h.headJob n job' head id _ rfl).2 rfl hm
    simp [old, ha] at hno
  | record _ job' p e he ha =>
    obtain ⟨hi, hended⟩ := h.free n job' _ rfl
    obtain ⟨hst, hend⟩ := h.final (n, job') List.mem_cons_self hi hended job hj
    have hnow := h.now q rfl
    simp only [RayJob.over, hst, hended, hend e he, Bool.true_and, Option.any_some,
      decide_eq_true_eq]
    omega
  | upload _ _ _ _ htk | takes _ _ _ _ _ _ _ htk => cases htk with | waits _ _ _ _ hu => cases hu
  | uses j _ _ _ hu =>
    generalize j.asked = asked at hu
    cases hu
  | polls _ _ _ _ _ h' => cases h'

/-- In a timely run, the reaper deletes no RayJob of a submission before its job has ended and
its record was kept long enough. -/
theorem spares_of_timely {d : ℤ} {nrp : Bool} {st : Standing} {acts : List Act} {act : Act} {s : St}
    (hc : program.Watched Listings.note (Timely d) [] (initial nrp st) (acts ++ [act]))
    (hr : program.run (initial nrp st) acts = some s) : Spares s act := by
  obtain ⟨hacts, hlast⟩ := hc.last hr
  have hinv : Reaping d _ s := Program.run_noted reaping_step (reaping_initial d nrp st) hacts hr
  intro n hn hm job hj
  rcases Program.mem_emits hn with ⟨i, r, rfl, hr, he⟩ | ⟨t, pc, a, r, rfl, ht, hr, he⟩
  · exact absurd he ((start_cases (w := s.world) hr).2.1 n)
  · have hres := resume_resumes hr
    obtain ⟨p, hp⟩ := hres.reaps n he
    exact (hinv.holds.each t _ ht).spares (hinv.shown.unharmed hlast ht) (hres.next _ hp) hm job hj

/-- An upload whose head takes START_TIMEOUT_S to start, and a submission that comes when its
RayJob has waited as long: it has sent its PATCH when a pass lists the RayJobs. -/
def lateRun : List Act :=
  .call (.submit { request "k" "a" with submission := none }) :: answers 0 [.ok, .ok, .ok, .ok] ++
    [.env (.report (hubJob "k") ⟨some "head", .new, none⟩), .env (.head "head" (some [])),
      .env (.tick 600)] ++
    answers 0 [.ok, .bool true, .bool false, .ok] ++ .env (.tick 600) ::
    .call (.submit (request "l" "a")) :: answers 1 [.ok, .ok, .ok, .ok] ++ [.call .reap, .serve 2 .ok]

theorem not_spares_late :
    ¬∀ nrp st acts act s, program.run (initial nrp st) acts = some s → Spares s act := by
  intro h
  have hany : (program.run (initial true nothing) lateRun).any (fun s =>
      decide (.reaps (hubJob "k") ∈ program.emits s (.resume 2)) &&
        decide (hubJob "k" ∈ s.mem.serving) &&
        (s.world.jobs.get? (.purdue, hubJob "k")).any fun j => !j.over s.world.now) = true := by
    decide +kernel
  obtain ⟨s, hs, hreap⟩ := (Option.any_eq_true _ _).mp hany
  simp only [Bool.and_eq_true, decide_eq_true_eq] at hreap
  obtain ⟨j, hj, hover⟩ := (Option.any_eq_true _ _).mp hreap.2
  rw [h true nothing _ _ s hs _ hreap.1.1 hreap.1.2 j hj] at hover
  cases hover

/-- A pass comes while the PATCH of a submission is under way whose head took 500 s. Another
deletes the record of its job when it has been kept for JOB_RECORD_S. -/
theorem spares_of_timely_ended :
    let acts := .call (.submit (request "k" "a")) :: answers 0 [.ok, .ok, .ok, .ok, .ok, .ok, .ok] ++
      [.env (.report (hubJob "k") ⟨some "head", .new, none⟩), .env (.head "head" (some [])),
        .env (.tick 500)] ++
      answers 0 [.ok, .bool true, .bool false] ++ .call .reap :: answers 1 [.ok] ++
      answers 0 [.ok, .ok] ++
      [.env (.report (hubJob "k") ⟨some "head", .succeeded, some 500⟩), .env (.tick 604800)] ++
      .call .reap :: answers 2 [.ok] ++ [.serve 2 .ok]
    program.Watched Listings.note (Timely 60) [] (initial true nothing) (acts ++ [.resume 2]) ∧
      ∃ s, program.run (initial true nothing) acts = some s ∧
        .reaps (hubJob "k") ∈ program.emits s (.resume 2) ∧ hubJob "k" ∈ s.mem.serving ∧
        Spares s (.resume 2) := by
  intro acts
  have hc : program.Watched Listings.note (Timely 60) [] (initial true nothing)
      (acts ++ [.resume 2]) := by
    decide +kernel
  have hany : (program.run (initial true nothing) acts).any (fun s =>
      decide (.reaps (hubJob "k") ∈ program.emits s (.resume 2)) &&
        decide (hubJob "k" ∈ s.mem.serving)) = true := by
    decide +kernel
  obtain ⟨s, hs, hreap⟩ := (Option.any_eq_true _ _).mp hany
  simp only [Bool.and_eq_true, decide_eq_true_eq] at hreap
  exact ⟨hc, s, hs, hreap.1, hreap.2, spares_of_timely hc hs⟩

end PurdueAF.RaySubmissions

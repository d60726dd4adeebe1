import PurdueAF.RaySubmissionSteps

/-!
# The RayJobs a submission may take

A name is drawn once, and its RayJob is then in one pair of hands: those of the call that
starts it, those of `waiting`, or those of the submission that took it, which sends it a jobId
and never gives it back. Nobody creates a RayJob of that name again.
-/
namespace PurdueAF.RaySubmissions
open Ray RayNaming Coroutine

/-- What changes of a RayJob that is there: its jobId, if `x` gives it one, and nothing of how
its job ended. -/
structure Kept (x : Option Write) (key : Key) (j j' : RayJob) : Prop where
  owner : j'.owner = j.owner
  jobId : j'.jobId = j.jobId ∨
    ∃ name id, x = some (.give name id) ∧ key = (.purdue, name) ∧ j'.jobId = some id
  status : ended j.status = true → j'.status = j.status
  endTime : ended j.status = true → ∀ e, j.endTime = some e → j'.endTime = some e

/-- The world after a step in which call `x`, if any, took effect or was put off. -/
structure Changes (w : World) (x : Option Write) (w' : World) : Prop where
  jobs : ∀ key j', w'.jobs.get? key = some j' →
    (∃ j, w.jobs.get? key = some j ∧ Kept x key j j') ∨
    ∃ job, x = some (.create key job) ∧ w.jobs.get? key = none ∧ j' = { job with created := w.now }
  late : ∀ y ∈ w'.late, y ∈ w.late ∨ x = some y
  now : w.now ≤ w'.now

variable {w w' : World} {g g' : Gateway} {pc pc' : Pc} {a : Answer} {r : Step}

theorem Kept.same {x : Option Write} {key : Key} {j : RayJob} : Kept x key j j :=
  ⟨rfl, .inl rfl, fun _ => rfl, fun _ _ h => h⟩

theorem Changes.of_jobs_eq {x : Option Write} (hj : w'.jobs = w.jobs)
    (hl : ∀ y ∈ w'.late, y ∈ w.late ∨ x = some y) (hn : w.now ≤ w'.now) : Changes w x w' :=
  ⟨fun _ j' h => .inl ⟨j', hj ▸ h, .same⟩, hl, hn⟩

theorem changes_put {x : Option Write} {key : Key} {j j' : RayJob} (hj : w.jobs.get? key = some j)
    (hk : Kept x key j j') : Changes w x (w.put key j') := by
  refine ⟨fun k i h => .inl ?_, fun y h => .inl h, le_rfl⟩
  have h : (w.jobs.set key j').get? k = some i := h
  rw [Dict.get?_set] at h
  split_ifs at h with hkey
  · cases h
    exact ⟨j, hkey ▸ hj, hkey ▸ hk⟩
  · exact ⟨i, h, .same⟩

theorem changes_apply (x : Write) : Changes w (some x) (w.apply x) := by
  have hsame : Changes w (some x) w := .of_jobs_eq rfl (fun _ h => .inl h) le_rfl
  cases x with
  | create key job =>
    simp only [World.apply]
    split
    · exact hsame
    · rename_i hnone
      refine ⟨fun k j' h => ?_, fun y h => .inl h, le_rfl⟩
      have h : (w.jobs.set key { job with created := w.now }).get? k = some j' := h
      rw [Dict.get?_set] at h
      split_ifs at h with hkey
      · cases h
        exact .inr ⟨job, by rw [hkey], by simpa [hkey] using hnone, rfl⟩
      · exact .inl ⟨j', h, .same⟩
  | give name id =>
    simp only [World.apply]
    split
    · rename_i j hj
      exact changes_put hj ⟨rfl, .inr ⟨name, id, rfl, rfl, rfl⟩, fun _ => rfl, fun _ _ h => h⟩
    · exact hsame
  | delete name =>
    simp only [World.apply]
    split
    · rename_i j hj
      exact changes_put hj ⟨rfl, .inl rfl, fun _ => rfl, fun _ _ h => h⟩
    · exact hsame

theorem changes_undergo (x : Write) (fate : Fate) : Changes w (some x) (w.undergo x fate) := by
  cases fate with
  | done => exact changes_apply x
  | late =>
    refine .of_jobs_eq rfl (fun y h => ?_) le_rfl
    have h : y ∈ w.late ++ [x] := h
    rw [List.mem_append, List.mem_singleton] at h
    exact h.imp id fun heq => by rw [heq]
  | never => exact .of_jobs_eq rfl (fun _ h => .inl h) le_rfl

theorem Serves.changes (h : Serves w pc a w') : Changes w pc.write w' := by
  cases h with
  | reads heads hn => exact .of_jobs_eq rfl (fun _ h => .inl h) le_rfl
  | writes x fate hx hd =>
    rw [hx]
    exact changes_undergo x fate

theorem report_kept {j j' : RayJob} {st : Report} {key : Key} (h : j.report st = some j') :
    Kept none key j j' := by
  unfold RayJob.report at h
  split_ifs at h with hc
  cases h
  simp only [Bool.and_eq_true, Bool.or_eq_true, decide_eq_true_eq, not_and, not_or, not_not] at hc
  refine ⟨rfl, .inl rfl, fun he => (hc he).1, fun he e hend => ?_⟩
  have hend' : (j.endTime.isSome && decide (st.endTime ≠ j.endTime)) ≠ true := by
    simpa using (hc he).2
  simp only [hend, Option.isSome_some, Bool.true_and, ne_eq, decide_eq_true_eq, not_not] at hend'
  exact hend'

/-- What the environment does to the RayJobs: a call that was put off takes effect, at most. -/
theorem Happens.changes (h : Happens w w') : ∃ x, Changes w x w' ∧ ∀ y, x = some y → y ∈ w.late := by
  cases h with
  | tick d => exact ⟨none, .of_jobs_eq rfl (fun _ h => .inl h) (by simp), by simp⟩
  | report name j j' st hj hr => exact ⟨none, changes_put hj (report_kept hr), by simp⟩
  | head heads => exact ⟨none, .of_jobs_eq rfl (fun _ h => .inl h) le_rfl, by simp⟩
  | gone key =>
    refine ⟨none, ⟨fun k j h => .inl ⟨j, ?_, .same⟩, fun _ h => .inl h, le_rfl⟩, by simp⟩
    have h : (w.jobs.pop key).get? k = some j := h
    rw [Dict.get?_pop] at h
    split_ifs at h
    exact h
  | land i x hx =>
    have hc := changes_apply (w := w) x
    refine ⟨some x, ⟨hc.jobs, fun y hy => .inl (List.mem_of_mem_eraseIdx hy), hc.now⟩, ?_⟩
    rintro y ⟨⟩
    exact List.mem_of_getElem? hx
  | lapse i =>
    exact ⟨none, .of_jobs_eq rfl (fun y hy => .inl (List.mem_of_mem_eraseIdx hy)) le_rfl, by simp⟩

/-- What is known of a call that may still take effect: a RayJob that is yet to be created has
nobody's hands on it, and one that is given a jobId is in a submission's. -/
def Allowed (g : Gateway) : Write → Prop
  | .create (.purdue, n) job => g.drawn.get? n = some job.owner ∧ job.jobId = none ∧ n ∉ g.given ∧
      ∀ c x, g.waiting.get? c = some x → x.name ≠ n
  | .give n _ => n ∈ g.given
  | _ => True

structure Named (w : World) (g : Gateway) : Prop where
  record : ∀ n j, w.jobs.get? (.purdue, n) = some j → g.drawn.get? n = some j.owner
  jobId : ∀ n j, w.jobs.get? (.purdue, n) = some j → j.jobId ≠ none → n ∈ g.given
  late : ∀ x ∈ w.late, Allowed g x
  drawn : ∀ n ∈ g.given, g.drawn.get? n ≠ none
  nodup : g.given.Nodup
  serving : ∀ n ∈ g.serving, n ∈ g.given
  waiting : ∀ c x, g.waiting.get? c = some x → g.drawn.get? x.name ≠ none ∧ x.name ∉ g.given
  apart : ∀ c c' x x', g.waiting.get? c = some x → g.waiting.get? c' = some x' →
    x.name = x'.name → c = c'

/-- The RayJobs a pass has listed that had a jobId, and the ones it is about to see. -/
def Pc.listed : Pc → Option Answer → List (String × RayJob)
  | .list, some (.jobs jobs) => jobs
  | .cluster name job _ _ p, _ | .headJob name job _ _ p, _ | .free name job _ p, _ =>
    (name, job) :: p.rest
  | .watch _ p, _ | .delete _ p, _ => p.rest
  | _, _ => []

/-- What a coroutine knows of the names it keeps. -/
structure Holder (w : World) (g : Gateway) (pc : Pc) (reply : Option Answer) : Prop where
  started : ∀ j, pc.started = some j → g.drawn.get? j.name = some (owned j.request.user) ∧
    j.name ∉ g.given ∧ ∀ c x, g.waiting.get? c = some x → x.name ≠ j.name
  uncreated : ∀ j, pc.started = some j → (∀ a, pc = .post j → reply = some a → a = .done) →
    ∀ job, .create (.purdue, j.name) job ∉ w.late
  patching : ∀ r asked x, pc = .patch r asked x → x.name ∈ g.given
  listed : ∀ e ∈ pc.listed reply, e.2.jobId ≠ none → e.1 ∈ g.given

/-- `new` is the name of the RayJob the coroutine starts. -/
def Pc.named (pc : Pc) (n : String) : Prop := pc.started.map Start.name = some n

def known (g : Gateway) (n : String) : Bool := (g.drawn.get? n).isSome

theorem Pc.named_of_started {j : Start} (h : pc.started = some j) : pc.named j.name := by
  simp [Pc.named, h]

/-- The names that the step of a coroutine touches: one it draws, one it starts, or one that
waits. -/
inductive Grounds (g : Gateway) (pc : Pc) (n : String) : Prop
  | drawn (h : g.drawn.get? n = none)
  | started (h : pc.named n)
  | waiting (c : String) (x : Waiting) (h : g.waiting.get? c = some x) (hn : x.name = n)

/-- What a coroutine does to the names: as far as others can see, it touches one at most. -/
structure Touches (g : Gateway) (n : Option String) (g' : Gateway) : Prop where
  drawn : ∀ m u, g.drawn.get? m = some u → g'.drawn.get? m = some u
  given : ∀ m ∈ g'.given, m ∈ g.given ∨ n = some m
  kept : ∀ m ∈ g.given, m ∈ g'.given
  waiting : ∀ c x, g'.waiting.get? c = some x → g.waiting.get? c = some x ∨ n = some x.name

/-- Every change of the names by a coroutine that goes on to `pc'`. -/
inductive Books (g : Gateway) (pc : Pc) (g' : Gateway) (pc' : Pc) : Prop
  | idle (hw : ∀ c x, g'.waiting.get? c = some x → g.waiting.get? c = some x)
      (hd : g'.drawn = g.drawn) (hg : g'.given = g.given) (hs : ∀ n ∈ g'.serving, n ∈ g.serving)
      (hp : ∀ j, pc'.started = some j → pc.started = some j)
  | draws (n : String) (u : Owner) (hn : g.drawn.get? n = none)
      (hw : ∀ c x, g'.waiting.get? c = some x → g.waiting.get? c = some x)
      (hd : g'.drawn = g.drawn.set n u) (hg : g'.given = g.given) (hs : g'.serving = g.serving)
      (hp : ∀ j, pc'.started = some j → j.name = n ∧ owned j.request.user = u)
  | puts (j : Start) (c : String) (x : Waiting) (hj : pc.posted = some j) (hx : x.name = j.name)
      (hw : g'.waiting = g.waiting.set c x) (hd : g'.drawn = g.drawn) (hg : g'.given = g.given)
      (hs : g'.serving = g.serving) (hp : pc'.started = none)
  | gives (r : Request) (asked : String) (x : Waiting) (hpc : pc' = .patch r asked x)
      (hx : (∃ j, pc.posted = some j ∧ x.name = j.name) ∧ g'.waiting = g.waiting ∨
        ∃ c, g.waiting.get? c = some x ∧ g'.waiting = g.waiting.pop c)
      (hd : g'.drawn = g.drawn) (hg : g'.given = x.name :: g.given)
      (hs : g'.serving = x.name :: g.serving)

theorem fitting_eq {r : Request} {x : Waiting} (h : fitting w g r = some x) :
    g.waiting.get? r.cluster = some x := (Option.filter_eq_some_iff.mp h).1

theorem get?_pop_imp {d : Dict String Waiting} {c k : String} {x : Waiting}
    (h : (d.pop c).get? k = some x) : d.get? k = some x := by
  rw [Dict.get?_pop] at h
  split_ifs at h
  exact h

theorem Takes.books {r : Request} {asked : Option String} {h₀ : Gateway}
    (h : Takes w h₀ r asked g' pc') (hw : h₀.waiting = g.waiting) (hd : h₀.drawn = g.drawn)
    (hg : h₀.given = g.given) (hs : h₀.serving = g.serving) : Books g pc g' pc' := by
  cases h with
  | waits x hx _ _ hu =>
    have hx := fitting_eq hx
    rw [hw] at hx
    cases hu with
    | upload =>
      refine .idle (fun k y hy => ?_) hd hg (fun n hn => hs ▸ hn) (fun _ h => by cases h)
      have hy : ((h₀.waiting.pop r.cluster).set r.cluster x).get? k = some y := hy
      rw [Dict.get?_set] at hy
      split_ifs at hy with hk
      · cases hy
        rw [hk]
        exact hx
      · rw [← hw]
        exact get?_pop_imp hy
    | submit id =>
      refine .gives r id x rfl (.inr ⟨r.cluster, hx, ?_⟩) hd ?_ ?_
      · rw [← hw]
      · rw [← hg]
      · rw [← hs]
  | draws hn =>
    rw [hd] at hn
    refine .draws r.name (owned r.user) hn (fun k y hy => ?_) ?_ hg hs fun j hj => ?_
    · rw [← hw]
      exact get?_pop_imp hy
    · rw [← hd]
    · cases hj
      exact ⟨rfl, rfl⟩

theorem Draws.books {r : Request} {h₀ : Gateway} {waits : Dict String (String × ℤ)}
    (h : Draws h₀ r g') (hp : pc'.started = none) (hw : h₀.waiting = g.waiting)
    (hd : h₀.drawn = g.drawn) (hg : h₀.given = g.given) (hs : h₀.serving = g.serving) :
    Books g pc { g' with nrpWaiting := waits } pc' := by
  have hp (j : Start) (hj : pc'.started = some j) : False := by
    rw [hp] at hj
    cases hj
  cases h with
  | waits =>
    exact .idle (fun k y hy => hw ▸ hy) hd hg (fun n hn => hs ▸ hn) fun j hj => (hp j hj).elim
  | draws hn =>
    rw [hd] at hn
    refine .draws r.name (owned r.user) hn (fun k y hy => hw ▸ hy) ?_ hg hs fun j hj => (hp j hj).elim
    rw [← hd]

theorem Leads.books (h : Leads w g pc a g' pc') : Books g pc g' pc' := by
  have hsame {pc' : Pc} (hp : ∀ j, pc'.started = some j → pc.started = some j) : Books g pc g pc' :=
    .idle (fun _ _ h => h) rfl rfl (fun _ h => h) hp
  cases h with
  | before r asked hfree =>
    exact .idle (fun _ _ h => h) rfl rfl (fun _ h => h) (by simp [Pc.started, Pc.posted])
  | upload r hfree _ _ ht => exact ht.books rfl rfl rfl rfl
  | package r hfree _ hn waits => exact hn.books rfl rfl rfl rfl rfl
  | nrpBody r sub name hfree _ hn =>
    exact hn.books rfl rfl rfl rfl rfl
  | nrpAsks r sub name =>
    exact .idle (fun _ _ h => h) rfl rfl (fun _ h => h) (by simp [Pc.started, Pc.posted])
  | takes r asked _ _ hp _ _ ht => exact ht.books rfl rfl rfl rfl
  | posts j => exact hsame fun _ h => h
  | polls j _ _ _ h h' =>
    refine hsame fun i hi => ?_
    obtain rfl : i = j := Option.some.inj (hi.symm.trans (Pc.started_posted h'))
    rcases h with ⟨rfl, -⟩ | h
    · rfl
    · exact Pc.started_posted h
  | uses j head _ _ hu =>
    cases hasked : j.asked with
    | none =>
      rw [hasked] at hu
      cases hu
      exact .puts j j.request.cluster _ rfl rfl rfl rfl rfl rfl rfl
    | some id =>
      rw [hasked] at hu
      cases hu
      exact .gives _ _ _ rfl (.inl ⟨⟨j, rfl, rfl⟩, rfl⟩) rfl rfl rfl
  | relays r asked x =>
    exact .idle (fun _ _ h => h) rfl rfl (fun _ h => h) (by simp [Pc.started, Pc.posted])
  | unpatched | deleteRecord =>
    exact .idle (fun _ _ h => h) rfl rfl (fun _ h => (List.mem_filter.mp h).1)
      (by simp [Pc.started, Pc.posted])
  | pass _ _ hn | passes _ _ _ _ _ hn =>
    refine hsame fun j hj => ?_
    rw [hn.holds.2] at hj
    cases hj
  | _ => exact hsame (by simp [Pc.started, Pc.posted])

theorem Books.touches (h : Books g pc g' pc') :
    ∃ n, Touches g n g' ∧ ∀ m, n = some m → Grounds g pc m := by
  cases h with
  | idle hw hd hg hs hp =>
    refine ⟨none, ⟨fun m u h => hd ▸ h, fun m h => .inl (hg ▸ h), fun m h => hg ▸ h,
      fun c x h => .inl (hw c x h)⟩, by simp⟩
  | draws n u hn hw hd hg hs hp =>
    refine ⟨some n, ⟨fun m u h => ?_, fun m h => .inl (hg ▸ h), fun m h => hg ▸ h,
      fun c x h => .inl (hw c x h)⟩, fun m hm => .drawn (Option.some.inj hm ▸ hn)⟩
    rw [hd, Dict.get?_set_ne _ _ (fun heq => by simp [← heq, h] at hn)]
    exact h
  | puts j c x hj hx hw hd hg hs hp =>
    refine ⟨some j.name, ⟨fun m u h => hd ▸ h, fun m h => .inl (hg ▸ h), fun m h => hg ▸ h,
      fun c' y h => ?_⟩, fun m hm => .started (Option.some.inj hm ▸ Pc.named_of_started (Pc.started_posted hj))⟩
    rw [hw, Dict.get?_set] at h
    split_ifs at h
    · cases h
      exact .inr (by rw [hx])
    · exact .inl h
  | gives r asked x hpc hx hd hg hs =>
    refine ⟨some x.name, ⟨fun m u h => hd ▸ h, fun m h => ?_, fun m h => ?_, fun c y h => .inl ?_⟩,
      fun m hm => ?_⟩
    · rw [hg, List.mem_cons] at h
      exact h.symm.imp id fun heq => by rw [heq]
    · rw [hg]
      exact List.mem_cons_of_mem _ h
    · rcases hx with ⟨-, hw⟩ | ⟨c', -, hw⟩
      · rwa [hw] at h
      · rw [hw] at h
        exact get?_pop_imp h
    · obtain rfl := Option.some.inj hm
      rcases hx with ⟨⟨j, hj, hn⟩, -⟩ | ⟨c, hc, -⟩
      · exact .started (hn ▸ Pc.named_of_started (Pc.started_posted hj))
      · exact .waiting c x hc rfl

theorem Allowed.touched {x : Write} {n : Option String} (h : Allowed g x) (ht : Touches g n g')
    (hne : ∀ m job, x = .create (.purdue, m) job → n ≠ some m) : Allowed g' x := by
  cases x with
  | create key job =>
    obtain ⟨site, m⟩ := key
    cases site with
    | nrp => trivial
    | purdue =>
      obtain ⟨hd, hi, hg, hw⟩ := h
      have hne := hne m job rfl
      refine ⟨ht.drawn m _ hd, hi, fun hm => ?_, fun c x hx heq => ?_⟩
      · exact (ht.given m hm).elim hg hne
      · rcases ht.waiting c x hx with hx | hn
        · exact hw c x hx heq
        · exact hne (heq ▸ hn)
  | give m id => exact ht.kept m h
  | delete m => trivial

theorem Named.changes {x : Option Write} (h : Named w g) (hc : Changes w x w')
    (hx : ∀ y, x = some y → Allowed g y) : Named w' g := by
  refine ⟨fun n j hj => ?_, fun n j hj hid => ?_, fun y hy => ?_, h.drawn, h.nodup, h.serving,
    h.waiting, h.apart⟩
  · rcases hc.jobs _ j hj with ⟨j₀, hj₀, hk⟩ | ⟨job, rfl, -, rfl⟩
    · rw [hk.owner]
      exact h.record n j₀ hj₀
    · exact (hx _ rfl).1
  · rcases hc.jobs _ j hj with ⟨j₀, hj₀, hk⟩ | ⟨job, rfl, -, rfl⟩
    · rcases hk.jobId with heq | ⟨name, id, rfl, hkey, -⟩
      · exact h.jobId n j₀ hj₀ (heq ▸ hid)
      · obtain rfl : n = name := (Prod.mk.inj hkey).2
        exact hx _ rfl
    · exact absurd (hx _ rfl).2.1 hid
  · exact (hc.late y hy).elim (h.late y) (hx y)

/-- A name that a coroutine touches is nobody else's to create. -/
theorem Named.uncreated {m : String} (h : Named w g) (hh : Holder w g pc (some a))
    (hu : ∀ j a', pc = .post j → some a = some a' → a' = .done) (hgr : Grounds g pc m) (job : RayJob) :
    .create (.purdue, m) job ∉ w.late := by
  intro hm
  obtain ⟨hd, -, -, hw⟩ := h.late _ hm
  cases hgr with
  | drawn hn => simp [hn] at hd
  | started hs =>
    obtain ⟨j, hj, rfl⟩ := Option.map_eq_some_iff.mp hs
    exact hh.uncreated j hj (fun a' hp ha => hu j a' hp ha) job hm
  | waiting c x hx hn => exact hw c x hx hn

theorem Named.books (h : Named w g) (hh : Holder w g pc (some a))
    (hu : ∀ j a', pc = .post j → some a = some a' → a' = .done) (hb : Books g pc g' pc') :
    Named w g' := by
  obtain ⟨n, ht, hgr⟩ := hb.touches
  have hlate (x : Write) (hx : x ∈ w.late) : Allowed g' x := by
    refine (h.late x hx).touched ht fun m job heq hn => ?_
    exact h.uncreated hh hu (hgr m hn) job (heq ▸ hx)
  have hrec (m : String) (j : RayJob) (hj : w.jobs.get? (.purdue, m) = some j) :
      g'.drawn.get? m = some j.owner := ht.drawn m _ (h.record m j hj)
  have hid (m : String) (j : RayJob) (hj : w.jobs.get? (.purdue, m) = some j) (hi : j.jobId ≠ none) :
      m ∈ g'.given := ht.kept m (h.jobId m j hj hi)
  have hdrawn (m : String) (hm : g.drawn.get? m ≠ none) : g'.drawn.get? m ≠ none := by
    obtain ⟨u, hu⟩ := Option.ne_none_iff_exists'.mp hm
    rw [ht.drawn m u hu]
    simp
  cases hb with
  | idle hw hd hg hs hp =>
    refine ⟨hrec, hid, hlate, fun m hm => hdrawn m (h.drawn m (hg ▸ hm)), hg ▸ h.nodup,
      fun m hm => hg ▸ h.serving m (hs m hm), fun c x hx => ?_, fun c c' x x' hx hx' => ?_⟩
    · exact ⟨hdrawn _ (h.waiting c x (hw c x hx)).1, hg ▸ (h.waiting c x (hw c x hx)).2⟩
    · exact h.apart c c' x x' (hw c x hx) (hw c' x' hx')
  | draws n u hn hw hd hg hs hp =>
    refine ⟨hrec, hid, hlate, fun m hm => hdrawn m (h.drawn m (hg ▸ hm)), hg ▸ h.nodup,
      fun m hm => hg ▸ h.serving m (hs ▸ hm), fun c x hx => ?_, fun c c' x x' hx hx' => ?_⟩
    · exact ⟨hdrawn _ (h.waiting c x (hw c x hx)).1, hg ▸ (h.waiting c x (hw c x hx)).2⟩
    · exact h.apart c c' x x' (hw c x hx) (hw c' x' hx')
  | puts j c x hj hx hw hd hg hs hp =>
    obtain ⟨hjd, hjg, hjw⟩ := hh.started j (Pc.started_posted hj)
    refine ⟨hrec, hid, hlate, fun m hm => hdrawn m (h.drawn m (hg ▸ hm)), hg ▸ h.nodup,
      fun m hm => hg ▸ h.serving m (hs ▸ hm), fun k y hy => ?_, fun k k' y y' hy hy' heq => ?_⟩
    · rw [hw, Dict.get?_set] at hy
      split_ifs at hy
      · cases hy
        exact ⟨by simp [hd, hx, hjd], by rw [hx, hg]; exact hjg⟩
      · exact ⟨hdrawn _ (h.waiting k y hy).1, hg ▸ (h.waiting k y hy).2⟩
    · rw [hw, Dict.get?_set] at hy hy'
      split_ifs at hy hy' with hk hk' hk'
      · rw [hk, hk']
      · cases hy
        exact absurd (heq.symm.trans hx) (hjw k' y' hy')
      · cases hy'
        exact absurd (heq.trans hx) (hjw k y hy)
      · exact h.apart k k' y y' hy hy' heq
  | gives r asked x hpc hx hd hg hs =>
    have hown : x.name ∉ g.given ∧ g.drawn.get? x.name ≠ none ∧
        ∀ c y, g'.waiting.get? c = some y → g.waiting.get? c = some y ∧ y.name ≠ x.name := by
      rcases hx with ⟨⟨j, hj, hn⟩, hw⟩ | ⟨c, hc, hw⟩
      · obtain ⟨hjd, hjg, hjw⟩ := hh.started j (Pc.started_posted hj)
        rw [hn, hw]
        exact ⟨hjg, by simp [hjd], fun c y hy => ⟨hy, hjw c y hy⟩⟩
      · refine ⟨(h.waiting c x hc).2, (h.waiting c x hc).1, fun c' y hy => ?_⟩
        rw [hw, Dict.get?_pop] at hy
        split_ifs at hy with hne
        exact ⟨hy, fun heq => hne (h.apart c' c y x hy hc heq)⟩
    obtain ⟨hnew, hxd, hwait⟩ := hown
    refine ⟨hrec, hid, hlate, fun m hm => ?_, ?_, fun m hm => ?_, fun c y hy => ?_,
      fun c c' y y' hy hy' => ?_⟩
    · rw [hg, List.mem_cons] at hm
      rcases hm with rfl | hm
      · exact hdrawn _ hxd
      · exact hdrawn m (h.drawn m hm)
    · rw [hg]
      exact List.nodup_cons.mpr ⟨hnew, h.nodup⟩
    · rw [hs, List.mem_cons] at hm
      rw [hg, List.mem_cons]
      exact hm.imp id (h.serving m)
    · obtain ⟨hy, hne⟩ := hwait c y hy
      refine ⟨hdrawn _ (h.waiting c y hy).1, ?_⟩
      rw [hg, List.mem_cons, not_or]
      exact ⟨hne, (h.waiting c y hy).2⟩
    · exact h.apart c c' y y' (hwait c y hy).1 (hwait c' y' hy').1

theorem Named.quits (h : Named w g) (hq : Quits g pc g') : Named w g' := by
  have ht : Touches g none g' :=
    ⟨fun m u hm => hq.drawn ▸ hm, fun m hm => .inl (hq.given ▸ hm), fun m hm => hq.given ▸ hm,
      fun c x hx => .inl (hq.waiting c x hx)⟩
  refine ⟨fun n j hj => hq.drawn ▸ h.record n j hj, fun n j hj hi => hq.given ▸ h.jobId n j hj hi,
    fun x hx => (h.late x hx).touched ht (by simp), fun n hn => hq.drawn ▸ h.drawn n (hq.given ▸ hn),
    hq.given ▸ h.nodup, fun n hn => hq.given ▸ h.serving n (hq.serving n hn), fun c x hx => ?_,
    fun c c' x x' hx hx' => h.apart c c' x x' (hq.waiting c x hx) (hq.waiting c' x' hx')⟩
  rw [hq.drawn, hq.given]
  exact h.waiting c x (hq.waiting c x hx)

theorem Holder.touched {reply : Option Answer} {n : Option String} (h : Holder w g pc reply)
    (ht : Touches g n g') (hne : ∀ j, pc.started = some j → n ≠ some j.name) :
    Holder w g' pc reply := by
  refine ⟨fun j hj => ?_, h.uncreated, fun r asked x hp => ht.kept _ (h.patching r asked x hp),
    fun e he hi => ht.kept _ (h.listed e he hi)⟩
  obtain ⟨hd, hg, hw⟩ := h.started j hj
  refine ⟨ht.drawn _ _ hd, fun hm => (ht.given _ hm).elim hg (hne j hj), fun c x hx heq => ?_⟩
  rcases ht.waiting c x hx with hx | hn
  · exact hw c x hx heq
  · exact hne j hj (heq ▸ hn)

theorem Holder.changes {reply : Option Answer} (h : Holder w g pc reply)
    (hl : ∀ j job, pc.started = some j → .create (.purdue, j.name) job ∈ w'.late →
      .create (.purdue, j.name) job ∈ w.late) : Holder w' g pc reply :=
  ⟨h.started, fun j hj hu job hm => h.uncreated j hj hu job (hl j job hj hm), h.patching, h.listed⟩

theorem Checks.listed {name : String} {job : RayJob} {p : Pass} (h : Checks name job p pc) :
    ∀ e ∈ pc.listed none, e = (name, job) ∨ e ∈ p.rest := by
  cases h with
  | cluster | free => exact fun e he => List.mem_cons.mp he
  | unsubmitted | unfollowed | watch => exact fun e he => .inr he

theorem Nexts.listed {p : Pass} (h : Nexts p pc) : ∀ e ∈ pc.listed none, e ∈ p.rest := by
  obtain ⟨name, job, rest, hs, _, hc⟩ := h
  intro e he
  refine hs.subset ?_
  rcases hc.listed e he with rfl | he
  · exact List.mem_cons_self
  · exact List.mem_cons_of_mem _ he

theorem Pc.rest_listed {p : Pass} (h : pc.pass = some p) (reply : Option Answer) :
    ∀ e ∈ p.rest, e ∈ pc.listed reply := by
  intro e he
  cases pc with
  | cluster | headJob | free =>
    cases h
    exact List.mem_cons_of_mem _ he
  | watch | delete =>
    cases h
    exact he
  | _ => cases h

theorem Leads.listed (h : Leads w g pc a g' pc') :
    ∀ e ∈ pc'.listed none, e ∈ pc.listed (some a) := by
  cases h with
  | upload _ _ _ _ ht | takes _ _ _ _ _ _ _ ht =>
    cases ht with
    | waits _ _ _ _ hu =>
      cases hu
      simp [Pc.listed]
    | draws => simp [Pc.listed]
  | uses j _ _ _ hu =>
    generalize j.asked = asked at hu
    cases hu <;> simp [Pc.listed]
  | polls j _ _ _ _ h' => cases pc' <;> cases h' <;> simp [Pc.listed]
  | pass jobs _ hn => exact hn.listed
  | headJob | frees => exact fun e he => he
  | unfollowed | unknown | record => exact fun e he => List.mem_cons_of_mem _ he
  | passes _ _ p hp _ hn => exact fun e he => Pc.rest_listed hp _ e (hn.listed e he)
  | _ => simp [Pc.listed]

/-- A call of `start_job` goes on past its POST only if that was answered as it should. -/
theorem Leads.posted (h : Leads w g pc a g' pc') (j : Start) (a' : Answer) (hp : pc = .post j)
    (ha : some a = some a') : a' = .done := by
  obtain rfl := Option.some.inj ha
  cases h with
  | polls j' _ _ _ h h' =>
    rcases h with ⟨-, rfl⟩ | h
    · rfl
    · rw [hp] at h
      cases h
  | undoes _ _ _ h =>
    rw [hp] at h
    cases h
  | gpus _ _ _ _ _ hp' | takes _ _ _ _ hp' =>
    rw [hp] at hp'
    cases hp'
  | deleteRecord _ _ hh =>
    rw [hp] at hh
    cases hh
  | passes _ _ _ hp' =>
    rw [hp] at hp'
    cases hp'
  | _ => cases hp

theorem Uses.patching {r r' : Request} {x x' : Waiting} {asked : Option String} {id : String}
    (h : Uses g r x asked g' (.patch r' id x')) : x'.name ∈ g'.given := by
  cases h
  exact List.mem_cons_self

/-- A submission that sends its PATCH has taken the RayJob. -/
theorem Leads.patching {r : Request} {asked : String} {x : Waiting}
    (h : Leads w g pc a g' (.patch r asked x)) : x.name ∈ g'.given := by
  cases h with
  | upload _ _ _ _ ht | takes _ _ _ _ _ _ _ ht => cases ht with | waits _ _ _ _ hu => exact hu.patching
  | uses _ _ _ _ hu => exact hu.patching
  | polls _ _ _ _ _ h' => cases h'
  | pass _ _ hn | passes _ _ _ _ _ hn => cases hn with | next _ _ _ _ _ hc => cases hc

theorem Holder.next (h : Holder w g pc (some a)) (hn : Named w g) (hl : Leads w g pc a g' pc') :
    Holder w g' pc' none := by
  obtain ⟨n, ht, hgr⟩ := hl.books.touches
  have hlisted (e : String × RayJob) (he : e ∈ pc'.listed none) (hi : e.2.jobId ≠ none) :
      e.1 ∈ g'.given := ht.kept _ (h.listed e (hl.listed e he) hi)
  have hpatch (r : Request) (asked : String) (x : Waiting) (hx : pc' = .patch r asked x) :
      x.name ∈ g'.given := by
    subst hx
    exact hl.patching
  have hnone {q : Start → Prop} (hp : pc'.started = none) (j : Start) (hj : pc'.started = some j) :
      q j := by
    rw [hp] at hj
    cases hj
  cases hl.books with
  | idle hw hd hg hs hp =>
    refine ⟨fun j hj => ?_, fun j hj _ => ?_, hpatch, hlisted⟩
    · obtain ⟨hjd, hjg, hjw⟩ := h.started j (hp j hj)
      exact ⟨hd ▸ hjd, hg ▸ hjg, fun c x hx => hjw c x (hw c x hx)⟩
    · exact h.uncreated j (hp j hj) fun a' => hl.posted j a'
  | draws n' u hfresh hw hd hg hs hp =>
    refine ⟨fun j hj => ?_, fun j hj _ job hm => ?_, hpatch, hlisted⟩
    · obtain ⟨rfl, hu⟩ := hp j hj
      refine ⟨by simp [hd, hu], fun hm => hn.drawn _ (hg ▸ hm) hfresh, fun c x hx heq => ?_⟩
      exact (hn.waiting c x (hw c x hx)).1 (heq ▸ hfresh)
    · obtain ⟨rfl, -⟩ := hp j hj
      have hd' := (hn.late _ hm).1
      simp [hfresh] at hd'
  | puts j c x hj hx hw hd hg hs hp => exact ⟨hnone hp, hnone hp, hpatch, hlisted⟩
  | gives r asked x hpc hx hd hg hs =>
    have hp : pc'.started = none := by rw [hpc]; rfl
    exact ⟨hnone hp, hnone hp, hpatch, hlisted⟩

theorem mem_at {site : Site} {e : String × RayJob} (h : e ∈ w.at site) :
    w.jobs.get? (site, e.1) = some e.2 := by
  simp only [World.at, List.mem_filterMap] at h
  obtain ⟨⟨site', n⟩, -, hk⟩ := h
  split_ifs at hk with hs
  obtain ⟨job, hj, rfl⟩ := Option.map_eq_some_iff.mp hk
  obtain rfl : site' = site := hs
  exact hj

theorem Holder.allowed {reply : Option Answer} (h : Holder w g pc reply) {y : Write}
    (hy : pc.write = some y) : Allowed g y := by
  cases pc with
  | post j =>
    cases hy
    obtain ⟨hd, hg, hw⟩ := h.started j rfl
    exact ⟨hd, rfl, hg, hw⟩
  | patch r asked x =>
    cases hy
    exact h.patching r asked x rfl
  | undo | deleteRecord | delete | nrpPost =>
    cases hy
    trivial
  | _ => cases hy

theorem Pc.write_create {key : Key} {job : RayJob} (h : pc.write = some (.create key job))
    (hk : key.1 = .purdue) : ∃ j, pc = .post j ∧ key.2 = j.name := by
  cases pc with
  | post j =>
    cases h
    exact ⟨j, rfl, rfl⟩
  | nrpPost =>
    cases h
    cases hk
  | _ => cases h

theorem apply_late (x : Write) : (w.apply x).late = w.late := by
  cases x with
  | create =>
    simp only [World.apply]
    split <;> rfl
  | give | delete =>
    simp only [World.apply]
    split <;> rfl

/-- The coroutine's own await is served. -/
theorem Holder.served (h : Holder w g pc none) (hn : Named w g) (hs : Serves w pc a w')
    (hr : Replies w pc a) : Holder w' g pc (some a) := by
  refine ⟨h.started, fun j hj hu job hm => ?_, h.patching, fun e he hi => ?_⟩
  · have hbefore := h.uncreated j hj (by simp) job
    cases hs with
    | reads heads hw => exact hbefore hm
    | writes x fate hx hd =>
      rcases (changes_undergo x fate).late _ hm with hlate | hnew
      · exact hbefore hlate
      -- A RayJob whose POST was answered as it should is there, and not yet to come.
      · obtain rfl := Option.some.inj hnew
        obtain ⟨j', rfl, hname⟩ := Pc.write_create hx rfl
        obtain rfl : j' = j := Option.some.inj hj
        obtain ⟨rfl, -⟩ := hd (hu a rfl rfl)
        rw [World.undergo, apply_late] at hm
        exact hbefore hm
  · cases pc with
    | list =>
      cases a with
      | jobs jobs =>
        cases hr with
        | silent _ _ hj => exact absurd rfl (hj jobs)
        | list => exact hn.jobId e.1 e.2 (mem_at he) hi
      | _ => simp [Pc.listed] at he
    | _ => exact h.listed e he hi

/-- No two coroutines start a RayJob of one name. -/
def Apart : St → Prop := Exclusive known Pc.named

theorem resume_apart (h : resume w g pc a = some r) :
    Locks known Pc.named g pc.named r := by
  have hr := resume_resumes h
  cases hn : r.next with
  | none =>
    refine .of_eq (funext fun n => ?_) (by simp [hn])
    rw [known, (hr.quits hn).drawn, known]
  | some pc' =>
    have hall (x : Pc) (hx : r.next = some x) : x = pc' := Option.some.inj (hx.symm.trans hn)
    cases (hr.next pc' hn).books with
    | idle hw hd hg hs hp =>
      refine .of_eq (funext fun n => by rw [known, hd, known]) fun n x hx hnamed => ?_
      obtain ⟨j, hj, rfl⟩ := Option.map_eq_some_iff.mp (hall x hx ▸ hnamed)
      exact Pc.named_of_started (hp j hj)
    | draws n u hfresh hw hd hg hs hp =>
      have hgrow (m : String) (hm : known g m = true) : known r.mem m = true := by
        rw [known, hd, Dict.get?_set]
        split_ifs
        · rfl
        · exact hm
      refine ⟨fun m _ => hgrow m, fun m x hx hnamed _ => ?_, fun m x hx hnamed _ => hgrow m⟩
      obtain ⟨j, hj, rfl⟩ := Option.map_eq_some_iff.mp (hall x hx ▸ hnamed)
      obtain ⟨hname, -⟩ := hp j hj
      simp [known, hname, hfresh, hd]
    | puts j c x hj hx hw hd hg hs hp =>
      refine .of_eq (funext fun n => by rw [known, hd, known]) fun n y hy hnamed => ?_
      simp [hall y hy, Pc.named, hp] at hnamed
    | gives r' asked x hpc hx hd hg hs =>
      refine .of_eq (funext fun n => by rw [known, hd, known]) fun n y hy hnamed => ?_
      simp [hall y hy, hpc, Pc.named, Pc.started, Pc.posted] at hnamed

theorem apart_step {s s' : St} {act : Act} (h : Apart s) (hs : program.step s act = some s') :
    Apart s' := by
  refine Exclusive.step (P := program) (fun w g i r hr => ?_) (fun w g pc a r hr => resume_apart hr)
    (fun w g e w' g' he n hn => ?_) h hs
  · have hmem := (start_cases (w := w) hr).2.2
    refine .of_eq (funext fun n => by rw [hmem]; rfl) fun n x hx hnamed => ?_
    simp [Pc.named, (start_holds (w := w) hr hx).2] at hnamed
  · rw [(env_happens he).1]
    exact hn

/-- The names are apart, and everyone knows whose hands they are in. -/
structure Names (s : St) : Prop where
  apart : Apart s
  holds : Holds Named Holder s

theorem Holder.start {call : Call} (h : start w g call = some r) {pc' : Pc}
    (hn : r.next = some pc') : Holder w r.mem pc' none := by
  have hs : pc'.started = none := (start_holds h hn).2
  have hpc : (∀ r asked x, pc' ≠ .patch r asked x) ∧ pc'.listed none = [] := by
    rcases (start_cases h).1 with hnone | ⟨pc, hp, hcases⟩
    · simp [hnone] at hn
    · obtain rfl : pc = pc' := Option.some.inj (hp.symm.trans hn)
      rcases hcases with ⟨_, rfl⟩ | ⟨_, rfl⟩ | ⟨_, _, _, rfl⟩ | rfl <;> simp [Pc.listed]
  refine ⟨by simp [hs], by simp [hs], fun r asked x hp => absurd hp (hpc.1 r asked x), ?_⟩
  simp [hpc.2]

theorem Holder.quits {reply : Option Answer} {other : Pc} (h : Holder w g other reply)
    (hq : Quits g pc g') : Holder w g' other reply :=
  h.touched (n := none) ⟨fun m u hm => hq.drawn ▸ hm, fun m hm => .inl (hq.given ▸ hm),
    fun m hm => hq.given ▸ hm, fun c x hx => .inl (hq.waiting c x hx)⟩ (by simp)

theorem names_step (s : St) (act : Act) (s' : St) (h : Names s)
    (hs : program.step s act = some s') : Names s' := by
  refine ⟨apart_step h.apart hs, ?_⟩
  refine Holds.step (P := program) (C := fun s _ => Apart s) (fun s i r h _ hr => ?_)
    (fun s t c pc w a h hap ht hv => ?_) (fun s t pc a r h hap ht hr => ?_)
    (fun s e w g h _ he => ?_) s act s' h.holds h.apart hs
  · have hmem := (start_cases (w := s.world) hr).2.2
    refine ⟨?_, fun pc hn => Holder.start hr hn, fun t pc a _ hh => ?_⟩
    · rw [hmem]
      exact ⟨h.shared.record, h.shared.jobId, h.shared.late, h.shared.drawn, h.shared.nodup,
        h.shared.serving, h.shared.waiting, h.shared.apart⟩
    · rw [hmem]
      exact ⟨hh.started, hh.uncreated, hh.patching, hh.listed⟩
  · obtain ⟨hsv, hrep⟩ := serve_serves hv
    have hown := h.each t _ ht
    refine ⟨h.shared.changes hsv.changes fun y hy => hown.allowed hy,
      hown.served h.shared hsv hrep, fun j pc' a' hne hj hh => ?_⟩
    refine hh.changes fun i job hi hm => (hsv.changes.late _ hm).resolve_right fun hx => hne ?_
    obtain ⟨i', rfl, hname⟩ := Pc.write_create hx rfl
    refine hap.one j t _ _ i.name hj ht (Pc.named_of_started hi) ?_
    rw [show i.name = i'.name from hname]
    exact Pc.named_of_started rfl
  · have hres := resume_resumes hr
    have hown := h.each t _ ht
    cases hn : r.next with
    | none =>
      have hq := hres.quits hn
      exact ⟨h.shared.quits hq, by simp, fun j pc' a' _ _ hh => hh.quits hq⟩
    | some pc₁ =>
      have hl := hres.next pc₁ hn
      obtain ⟨n, htouch, hgr⟩ := hl.books.touches
      refine ⟨h.shared.books hown hl.posted hl.books, fun pc' hp => ?_, fun j pc' a' hne hj hh => ?_⟩
      · obtain rfl := Option.some.inj hp
        exact hown.next h.shared hl
      · refine hh.touched htouch fun i hi heq => ?_
        obtain ⟨hd, -, hw⟩ := hh.started i hi
        cases hgr i.name heq with
        | drawn hfresh => simp [hfresh] at hd
        | started hnamed => exact hne (hap.one j t _ _ i.name hj ht (Pc.named_of_started hi) hnamed)
        | waiting c x hx hname => exact hw c x hx hname
  · obtain ⟨rfl, hhap⟩ := env_happens he
    obtain ⟨x, hc, hx⟩ := hhap.changes
    refine ⟨h.shared.changes hc fun y hy => h.shared.late y (hx y hy), fun t pc a _ hh => ?_⟩
    refine hh.changes fun j job hj hm => ?_
    exact (hc.late _ hm).elim id (hx _)

theorem names_initial (nrp : Bool) (st : Standing) : Names (initial nrp st) := by
  have hat (t : ℕ) : State.at (initial nrp st) t = none := by simp [State.at, initial]
  have hpair {n : String} {j : RayJob} (hj : st.jobs.get? (.purdue, n) = some j) :
      (Dict.ofPairs (st.jobs.map fun e => (e.1.2, e.2.owner))).get? n = some j.owner := by
    refine Dict.get?_ofPairs_of_mem ?_ (List.mem_map.mpr ⟨_, Dict.mem_of_get? hj, rfl⟩)
    rw [List.map_map]
    exact st.names
  have hgiven {n : String} (hn : n ∈ givenNames st.jobs) : ∃ j, ((.purdue, n), j) ∈ st.jobs := by
    simp only [givenNames, List.mem_map, List.mem_filter, Bool.and_eq_true, decide_eq_true_eq] at hn
    obtain ⟨⟨⟨site, m⟩, j⟩, ⟨he, hs, -⟩, rfl⟩ := hn
    obtain rfl : site = .purdue := hs
    exact ⟨j, he⟩
  refine ⟨⟨by simp [hat], by simp [hat]⟩, ?_, by simp [hat]⟩
  refine ⟨fun n j hj => hpair hj, fun n j hj hi => ?_, by simp [initial], fun n hn => ?_, ?_,
    st.served, by simp [initial], by simp [initial]⟩
  · refine List.mem_map.mpr ⟨_, List.mem_filter.mpr ⟨Dict.mem_of_get? hj, ?_⟩, rfl⟩
    simp [Option.isSome_iff_ne_none, hi]
  · obtain ⟨j, hj⟩ := hgiven hn
    have hm : (n, j.owner) ∈ st.jobs.map fun e => (e.1.2, e.2.owner) :=
      List.mem_map.mpr ⟨_, hj, rfl⟩
    have hget := Dict.get?_ofPairs_of_mem (by rw [List.map_map]; exact st.names) hm
    change (Dict.ofPairs _).get? n ≠ none
    simp [hget]
  · have hsub : (givenNames st.jobs).Sublist (st.jobs.map fun e => e.1.2) :=
      List.Sublist.map (fun e : Key × RayJob => e.1.2) List.filter_sublist
    exact List.Nodup.sublist hsub st.names

end PurdueAF.RaySubmissions

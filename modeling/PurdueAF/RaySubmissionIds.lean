import PurdueAF.RaySubmissionNames

/-!
# Submission IDs are unique

A user's RayJobs, at Purdue and on NRP together, have different jobIds, as long as every
check for an ID is answered: `nrp_jobs` takes no answer for no jobs. A call that was not
answered counts as well, as it may take effect after the check.
-/
namespace PurdueAF.RaySubmissions
open Ray RayNaming Coroutine

/-- Whether the call, once it takes effect, makes a RayJob of the user's carry the ID. -/
def Write.carries (g : Gateway) (site : Site) (owner : Owner) (id : String) : Write → Bool
  | .create key job => key.1 = site && job.owner = owner && job.jobId = some id
  | .give n id' => site = .purdue && id' = id && g.drawn.get? n = some owner
  | .delete _ => false

def World.pending (w : World) (g : Gateway) (site : Site) (owner : Owner) (id : String) : Bool :=
  w.late.any (Write.carries g site owner id)

def World.has (w : World) (site : Site) (owner : Owner) (id : String) : Bool :=
  (w.at site).any fun e => e.2.owner = owner && e.2.jobId = some id

/-- A submission to Purdue would take a RayJob of its own user's. -/
def takesOwn (w : World) (g : Gateway) (r : Request) (goal : Goal) : Bool :=
  goal ≠ .purdue || (fitting w g r).all fun x => g.drawn.get? x.name = some (owned r.user)

/-- The checks for an ID see every job of it: no call that may still give a RayJob of the
user's that ID is under way, NRP answers unless there is nothing to hear, and the RayJob that
waits under the user's name is theirs. -/
def careful (s : St) : Act → Bool
  | .serve t c =>
    match s.at t with
    | some ⟨.before r asked _, none⟩ =>
      c ≠ .ok || !s.world.pending s.mem .purdue (owned r.user) asked
    | some ⟨.nrpBefore r asked _, none⟩ =>
      (c = .ok || !s.world.has .nrp (owned r.user) asked) &&
        !s.world.pending s.mem .nrp (owned r.user) asked
    | _ => true
  | .resume t =>
    match s.at t with
    | some ⟨.before r asked goal, some (.jobs _)⟩ =>
      s.mem.nrp || (!s.world.has .nrp (owned r.user) asked &&
        !s.world.pending s.mem .nrp (owned r.user) asked && takesOwn s.world s.mem r goal)
    | some ⟨.nrpBefore r _ goal, some _⟩ => takesOwn s.world s.mem r goal
    | _ => true
  | _ => true

def Careful (s : St) (act : Act) : Prop := careful s act = true

instance (s : St) (act : Act) : Decidable (Careful s act) :=
  inferInstanceAs (Decidable (careful s act = true))

/-- The RayJob of that key that the call makes carry the ID. -/
def Write.Marks (g : Gateway) (x : Write) (key : Key) (owner : Owner) (id : String) : Prop :=
  match x with
  | .create k job => k = key ∧ job.owner = owner ∧ job.jobId = some id
  | .give n id' => key = (.purdue, n) ∧ id' = id ∧ g.drawn.get? n = some owner
  | .delete _ => False

/-- A RayJob of the user's carries the ID, or may come to. -/
def Bears (w : World) (g : Gateway) (key : Key) (owner : Owner) (id : String) : Prop :=
  (∃ j, w.jobs.get? key = some j ∧ j.owner = owner ∧ j.jobId = some id) ∨
    ∃ x ∈ w.late, x.Marks g key owner id

def Absent (w : World) (g : Gateway) (site : Site) (owner : Owner) (id : String) : Prop :=
  ∀ key, key.1 = site → ¬Bears w g key owner id

/-- One RayJob at most bears an ID. -/
def One (w : World) (g : Gateway) : Prop :=
  ∀ k k' owner id, Bears w g k owner id → Bears w g k' owner id → k = k'

variable {w w' : World} {g g' : Gateway} {pc pc' : Pc} {a : Answer} {r : Step}

theorem Write.Marks.carries {x : Write} {key : Key} {owner : Owner} {id : String}
    (h : x.Marks g key owner id) : x.carries g key.1 owner id = true := by
  cases x with
  | create k job =>
    obtain ⟨rfl, ho, hi⟩ := h
    simp [Write.carries, ho, hi]
  | give n id' =>
    obtain ⟨rfl, hi, hd⟩ := h
    simp [Write.carries, hi, hd]
  | delete n => exact h.elim

theorem mem_at_of_get? {key : Key} {j : RayJob} (h : w.jobs.get? key = some j) :
    (key.2, j) ∈ w.at key.1 := by
  refine List.mem_filterMap.mpr ⟨key, List.mem_map.mpr ⟨_, Dict.mem_of_get? h, rfl⟩, ?_⟩
  simp [h]

theorem absent_of_not_has {site : Site} {owner : Owner} {id : String}
    (hh : w.has site owner id = false) (hp : w.pending g site owner id = false) :
    Absent w g site owner id := by
  rintro key rfl (⟨j, hj, ho, hi⟩ | ⟨x, hx, hm⟩)
  · have hany : w.has key.1 owner id = true :=
      List.any_eq_true.mpr ⟨_, mem_at_of_get? hj, by simp [ho, hi]⟩
    rw [hh] at hany
    cases hany
  · have hany : w.pending g key.1 owner id = true := List.any_eq_true.mpr ⟨x, hx, hm.carries⟩
    rw [hp] at hany
    cases hany

/-- Only the call that takes effect makes a RayJob bear an ID. -/
theorem Changes.bears {x : Option Write} {key : Key} {owner : Owner} {id : String}
    (hc : Changes w x w') (hn : Named w g) (h : Bears w' g key owner id) :
    Bears w g key owner id ∨ ∃ y, x = some y ∧ y.Marks g key owner id := by
  rcases h with ⟨j', hj', ho, hi⟩ | ⟨y, hy, hm⟩
  · rcases hc.jobs key j' hj' with ⟨j, hj, hk⟩ | ⟨job, rfl, -, rfl⟩
    · rcases hk.jobId with heq | ⟨n, id', rfl, rfl, heq⟩
      · exact .inl (.inl ⟨j, hj, hk.owner ▸ ho, heq ▸ hi⟩)
      · refine .inr ⟨_, rfl, rfl, Option.some.inj (heq.symm.trans hi), ?_⟩
        rw [hn.record n j hj, ← hk.owner, ho]
    · exact .inr ⟨_, rfl, rfl, ho, hi⟩
  · rcases hc.late y hy with hy | rfl
    · exact .inl (.inr ⟨y, hy, hm⟩)
    · exact .inr ⟨y, rfl, hm⟩

/-- A coroutine that goes on changes nothing of what bears an ID. -/
theorem Touches.bears {n : Option String} {key : Key} {owner : Owner} {id : String}
    (ht : Touches g n g') (hn : Named w g) (h : Bears w g' key owner id) : Bears w g key owner id := by
  refine h.imp_right fun ⟨y, hy, hm⟩ => ⟨y, hy, ?_⟩
  cases y with
  | create k job => exact hm
  | give m id' =>
    obtain ⟨hk, hi, hd⟩ := hm
    obtain ⟨u, hu⟩ := Option.ne_none_iff_exists'.mp (hn.drawn m (hn.late _ hy))
    obtain rfl : u = owner := Option.some.inj ((ht.drawn m u hu).symm.trans hd)
    exact ⟨hk, hi, hu⟩
  | delete m => exact hm

/-- The ID a submission is about to give a RayJob of its user's, once the check for it is done. -/
def Pc.cleared : Pc → Option Answer → Option (Owner × String)
  | .patch r asked _, none => some (owned r.user, asked)
  | .gpus r asked _, _ | .nrpPost r asked _, none => some (owned r.user, asked)
  | pc, _ => pc.started.bind fun j => j.asked.map fun id => (owned j.request.user, id)

structure Checked (w : World) (g : Gateway) (pc : Pc) (reply : Option Answer) : Prop where
  cleared : ∀ owner id, pc.cleared reply = some (owner, id) → ∀ key, ¬Bears w g key owner id
  before : ∀ r asked goal listed, pc = .before r asked goal → reply = some (.jobs listed) →
    (∀ e ∈ listed, e.2.owner = owned r.user → e.2.jobId ≠ some asked) →
    Absent w g .purdue (owned r.user) asked
  nrpBefore : ∀ r asked goal, pc = .nrpBefore r asked goal →
    Absent w g .purdue (owned r.user) asked ∧ ∀ a, reply = some a →
      (∀ listed, a = .jobs listed → ∀ e ∈ listed, e.2.jobId ≠ some asked) →
      Absent w g .nrp (owned r.user) asked
  patching : ∀ r asked x, pc = .patch r asked x → g.drawn.get? x.name = some (owned r.user)

theorem Pc.cleared_holds {reply : Option Answer} {owner : Owner} {id : String}
    (h : pc.cleared reply = some (owner, id)) : pc.holds = some owner.1 := by
  have hstart (hs : (pc.started.bind fun j => j.asked.map fun id => (owned j.request.user, id)) =
      some (owner, id)) : pc.holds = some owner.1 := by
    obtain ⟨j, hj, hm⟩ := Option.bind_eq_some_iff.mp hs
    obtain ⟨id', -, heq⟩ := Option.map_eq_some_iff.mp hm
    cases heq
    exact Pc.holds_started hj
  cases pc with
  | patch r asked x | nrpPost r asked x =>
    cases reply with
    | none =>
      cases h
      rfl
    | some a => exact hstart h
  | gpus r asked name =>
    cases h
    rfl
  | _ => exact hstart h

/-- What a coroutine knows stays true while nothing of its own user's comes to bear an ID. -/
theorem Checked.mono {reply : Option Answer} (h : Checked w g pc reply)
    (hb : ∀ key owner id, pc.holds = some owner.1 → Bears w' g' key owner id →
      Bears w g key owner id)
    (hd : ∀ n owner, g.drawn.get? n = some owner → g'.drawn.get? n = some owner) :
    Checked w' g' pc reply := by
  refine ⟨fun owner id hc key hk => ?_, fun r asked goal listed hp hr hno key hs hk => ?_,
    fun r asked goal hp => ⟨fun key hs hk => ?_, fun a ha hno key hs hk => ?_⟩,
    fun r asked x hp => hd _ _ (h.patching r asked x hp)⟩
  · exact h.cleared owner id hc key (hb key owner id (Pc.cleared_holds hc) hk)
  · exact h.before r asked goal listed hp hr hno key hs (hb key _ _ (by rw [hp]; rfl) hk)
  · exact (h.nrpBefore r asked goal hp).1 key hs (hb key _ _ (by rw [hp]; rfl) hk)
  · exact (h.nrpBefore r asked goal hp).2 a ha hno key hs (hb key _ _ (by rw [hp]; rfl) hk)

/-- A coroutine that knows nothing of an ID. -/
theorem Checked.blank {reply : Option Answer} (hc : pc.cleared reply = none)
    (hb : ∀ r asked goal, pc ≠ .before r asked goal ∧ pc ≠ .nrpBefore r asked goal)
    (hp : ∀ r asked x, pc ≠ .patch r asked x) : Checked w g pc reply :=
  ⟨by simp [hc], fun r asked goal _ h => absurd h (hb r asked goal).1,
    fun r asked goal h => absurd h (hb r asked goal).2, fun r asked x h => absurd h (hp r asked x)⟩

/-- The call a coroutine awaits makes no RayJob bear an ID but the one it has checked. -/
theorem Checked.marks (h : Checked w g pc none) {y : Write} (hy : pc.write = some y) {key : Key}
    {owner : Owner} {id : String} (hm : y.Marks g key owner id) :
    pc.cleared none = some (owner, id) ∧
      ∀ key' owner' id', y.Marks g key' owner' id' → key' = key ∧ owner' = owner ∧ id' = id := by
  cases pc with
  | post j =>
    cases hy
    cases hm.2.2
  | patch r asked x =>
    cases hy
    obtain ⟨rfl, rfl, hd⟩ := hm
    have hown := h.patching r asked x rfl
    obtain rfl : owned r.user = owner := Option.some.inj (hown.symm.trans hd)
    refine ⟨rfl, fun key' owner' id' hm' => ?_⟩
    obtain ⟨rfl, rfl, hd'⟩ := hm'
    exact ⟨rfl, Option.some.inj (hd'.symm.trans hown), rfl⟩
  | nrpPost r asked name =>
    cases hy
    obtain ⟨rfl, rfl, hi⟩ := hm
    obtain rfl := Option.some.inj hi
    refine ⟨rfl, fun key' owner' id' hm' => ?_⟩
    obtain ⟨rfl, rfl, hi'⟩ := hm'
    exact ⟨rfl, rfl, (Option.some.inj hi').symm⟩
  | undo | deleteRecord | delete =>
    cases hy
    exact hm.elim
  | _ => cases hy

theorem One.served (h : One w g) (hn : Named w g) (hk : Checked w g pc none)
    (hc : Changes w pc.write w') : One w' g := by
  intro k k' owner id hb hb'
  rcases hc.bears hn hb with hold | ⟨y, hy, hm⟩
  · rcases hc.bears hn hb' with hold' | ⟨y', hy', hm'⟩
    · exact h k k' owner id hold hold'
    · exact absurd hold (hk.cleared owner id (hk.marks hy' hm').1 k)
  · rcases hc.bears hn hb' with hold' | ⟨y', hy', hm'⟩
    · exact absurd hold' (hk.cleared owner id (hk.marks hy hm).1 k')
    · obtain rfl := Option.some.inj (hy.symm.trans hy')
      exact ((hk.marks hy hm).2 k' owner id hm').1.symm

theorem Pc.cleared_some {reply : Option Answer} {owner : Owner} {id : String}
    (h : pc.cleared reply = some (owner, id)) : pc.cleared none = some (owner, id) := by
  cases pc with
  | patch | nrpPost =>
    cases reply with
    | none => exact h
    | some a => cases h
  | _ => exact h

/-- The assertion at an await that is served, but for the two checks. -/
theorem Checked.served (h : Checked w g pc none) (hn : Named w g) (hc : Changes w pc.write w')
    (hb : ∀ r asked goal, pc = .before r asked goal → ∀ listed, a = .jobs listed →
      (∀ e ∈ listed, e.2.owner = owned r.user → e.2.jobId ≠ some asked) →
      Absent w' g .purdue (owned r.user) asked)
    (hnb : ∀ r asked goal, pc = .nrpBefore r asked goal →
      (∀ listed, a = .jobs listed → ∀ e ∈ listed, e.2.jobId ≠ some asked) →
      Absent w' g .nrp (owned r.user) asked) : Checked w' g pc (some a) := by
  refine ⟨fun owner id hcl key hk => ?_, fun r asked goal listed hp hr => ?_,
    fun r asked goal hp => ⟨fun key hs hk => ?_, fun a' ha => ?_⟩, h.patching⟩
  · rcases hc.bears hn hk with hold | ⟨y, hy, hm⟩
    · exact h.cleared owner id (Pc.cleared_some hcl) key hold
    · cases pc with
      | post j =>
        cases hy
        cases hm.2.2
      | patch | nrpPost => cases hcl
      | _ => cases hy; try exact hm.elim
  · exact hb r asked goal hp listed (Option.some.inj hr)
  · rcases hc.bears hn hk with hold | ⟨y, hy, hm⟩
    · exact (h.nrpBefore r asked goal hp).1 key hs hold
    · rw [hp] at hy
      cases hy
  · obtain rfl := Option.some.inj ha
    exact hnb r asked goal hp

/-- Purdue's listing shows every RayJob of the user's. -/
theorem absent_of_listing {r : Request} {asked : String}
    (hp : w.pending g .purdue (owned r.user) asked = false)
    (hno : ∀ e ∈ w.listing.filter (fun e => e.2.owner.1 = r.cluster),
      e.2.owner = owned r.user → e.2.jobId ≠ some asked) :
    Absent w g .purdue (owned r.user) asked := by
  refine absent_of_not_has ?_ hp
  by_contra hh
  rw [Bool.not_eq_false] at hh
  obtain ⟨e, he, hc⟩ := List.any_eq_true.mp hh
  simp only [Bool.and_eq_true, decide_eq_true_eq] at hc
  refine hno e (List.mem_filter.mpr ⟨he, ?_⟩) hc.1 hc.2
  simp [hc.1, owned, Request.cluster]

theorem absent_of_nrpListing {r : Request} {asked : String}
    (hp : w.pending g .nrp (owned r.user) asked = false)
    (hno : ∀ e ∈ w.nrpListing (owned r.user), e.2.jobId ≠ some asked) :
    Absent w g .nrp (owned r.user) asked := by
  refine absent_of_not_has ?_ hp
  by_contra hh
  rw [Bool.not_eq_false] at hh
  obtain ⟨e, he, hc⟩ := List.any_eq_true.mp hh
  simp only [Bool.and_eq_true, decide_eq_true_eq] at hc
  refine hno e (List.mem_filter.mpr ⟨he, ?_⟩) hc.2
  simp [hc.1]

theorem Checked.own_served {s : St} {t : ℕ} {c : Choice} (hcare : Careful s (.serve t c))
    (ht : s.at t = some ⟨pc, none⟩) (hv : serve s.world pc c = some (w', a))
    (h : Checked s.world s.mem pc none) (hn : Named s.world s.mem) :
    Checked w' s.mem pc (some a) := by
  refine h.served hn (serve_serves hv).1.changes (fun r asked goal hp listed hl hno => ?_)
    fun r asked goal hp hno => ?_
  · subst hp
    obtain ⟨rfl, ⟨rfl, rfl⟩ | ⟨said, rfl⟩ | rfl⟩ := reading_eq hv
    · cases hl
      simp only [Careful, careful, ht, ne_eq, not_true_eq_false, decide_false, Bool.false_or,
        Bool.not_eq_true'] at hcare
      exact absent_of_listing hcare hno
    · cases hl
    · cases hl
  · subst hp
    simp only [Careful, careful, ht, Bool.and_eq_true, Bool.or_eq_true, decide_eq_true_eq,
      Bool.not_eq_true'] at hcare
    obtain ⟨rfl, hcases⟩ := reading_eq hv
    rcases hcare.1 with rfl | hhas
    · rcases hcases with ⟨rfl, -⟩ | ⟨said, rfl⟩ | rfl
      · exact absent_of_nrpListing hcare.2 (hno _ rfl)
      · cases hv
      · cases hv
    · exact absent_of_not_has hhas hcare.2

/-- A submission that passed the check knows that nothing of the user's bears the ID. -/
theorem Passed.absent {s : St} {t : ℕ} {r : Request} {asked : String} {goal : Goal}
    (hp : Passed s.mem r asked goal pc a) (hcare : Careful s (.resume t))
    (ht : s.at t = some ⟨pc, some a⟩) (h : Checked s.world s.mem pc (some a)) :
    (∀ key, ¬Bears s.world s.mem key (owned r.user) asked) ∧ takesOwn s.world s.mem r goal = true := by
  have hboth (hpu : Absent s.world s.mem .purdue (owned r.user) asked)
      (hnrp : Absent s.world s.mem .nrp (owned r.user) asked) (key : Key) :
      ¬Bears s.world s.mem key (owned r.user) asked := by
    obtain ⟨site, n⟩ := key
    cases site with
    | purdue => exact hpu _ rfl
    | nrp => exact hnrp _ rfl
  cases hp with
  | purdue listed hn hno =>
    simp only [Careful, careful, ht, hn, Bool.false_or, Bool.and_eq_true, Bool.not_eq_true'] at hcare
    exact ⟨hboth (h.before r asked goal listed rfl rfl hno) (absent_of_not_has hcare.1.1 hcare.1.2),
      hcare.2⟩
  | nrp _ hno =>
    simp only [Careful, careful, ht] at hcare
    obtain ⟨hpu, hnrp⟩ := h.nrpBefore r asked goal rfl
    exact ⟨hboth hpu (hnrp a rfl hno), hcare⟩

theorem Checked.of_cleared {owner : Owner} {id : String} (hc : pc.cleared none = some (owner, id))
    (hno : ∀ key, ¬Bears w g key owner id)
    (hb : ∀ r asked goal, pc ≠ .before r asked goal ∧ pc ≠ .nrpBefore r asked goal)
    (hp : ∀ r asked x, pc = .patch r asked x → g.drawn.get? x.name = some (owned r.user)) :
    Checked w g pc none := by
  refine ⟨fun owner' id' hc' key => ?_, fun r asked goal _ h => absurd h (hb r asked goal).1,
    fun r asked goal h => absurd h (hb r asked goal).2, hp⟩
  obtain ⟨rfl, rfl⟩ := Prod.mk.inj (Option.some.inj (hc.symm.trans hc'))
  exact hno key

theorem Takes.checked {r : Request} {asked : String} (h : Takes w g r (some asked) g' pc')
    (hno : ∀ key, ¬Bears w g' key (owned r.user) asked)
    (hown : takesOwn w g r .purdue = true) : Checked w g' pc' none := by
  cases h with
  | waits x hx _ _ hu =>
    cases hu
    refine .of_cleared rfl hno (by simp) ?_
    rintro _ _ _ ⟨⟩
    simpa [takesOwn, hx] using hown
  | draws hd => exact .of_cleared rfl hno (by simp) (by simp)

theorem Checked.next {s : St} {t : ℕ} (hcare : Careful s (.resume t))
    (ht : s.at t = some ⟨pc, some a⟩) (h : Checked s.world s.mem pc (some a)) (hn : Named s.world s.mem)
    (hh : Holder s.world s.mem pc (some a)) (hl : Leads s.world s.mem pc a g' pc') :
    Checked s.world g' pc' none := by
  obtain ⟨n, htouch, -⟩ := hl.books.touches
  have hbears {key : Key} {owner : Owner} {id : String} (hb : Bears s.world g' key owner id) :
      Bears s.world s.mem key owner id := htouch.bears hn hb
  -- A call of `start_job` goes on for the ID it was begun for.
  have hkeep {pc' : Pc} {j : Start} (hj : pc.started = some j)
      (hc : ∀ reply, pc.cleared reply = j.asked.map fun id => (owned j.request.user, id))
      (hc' : pc'.cleared none = j.asked.map fun id => (owned j.request.user, id))
      (hb : ∀ r asked goal, pc' ≠ .before r asked goal ∧ pc' ≠ .nrpBefore r asked goal)
      (hp : ∀ r asked x, pc' ≠ .patch r asked x) : Checked s.world s.mem pc' none := by
    cases ha : j.asked with
    | none => exact .blank (by rw [hc', ha]; rfl) hb hp
    | some id =>
      refine .of_cleared (by rw [hc', ha]; rfl) (fun key => ?_) hb fun r asked x hx =>
        absurd hx (hp r asked x)
      exact h.cleared _ id (by rw [hc, ha]; rfl) key
  cases hl with
  | nrpBefore r asked goal listed hno =>
    have habs := h.before r asked goal listed rfl rfl hno
    refine ⟨by simp [Pc.cleared, Pc.started, Pc.posted], by simp, ?_, by simp⟩
    rintro _ _ _ ⟨⟩
    exact ⟨habs, by simp⟩
  | gpus r asked name _ _ hp =>
    exact .of_cleared rfl (hp.absent hcare ht h).1 (by simp) (by simp)
  | takes r asked _ _ hp _ _ htk =>
    obtain ⟨hno, hown⟩ := hp.absent hcare ht h
    exact htk.checked (fun key hb => hno key (hbears hb)) hown
  | posts j => exact hkeep (j := j) rfl (fun _ => rfl) rfl (by simp) (by simp)
  | polls j _ _ _ hpc h' =>
    have hj : pc.started = some j := by
      rcases hpc with ⟨rfl, -⟩ | hpc
      · rfl
      · exact Pc.started_posted hpc
    refine hkeep hj (fun reply => ?_) ?_ ?_ ?_
    · cases pc <;> cases hj <;> rfl
    · cases pc' <;> cases h' <;> rfl
    · cases pc' <;> cases h' <;> simp
    · cases pc' <;> cases h' <;> simp
  | uses j head _ _ hu =>
    cases ha : j.asked with
    | none =>
      rw [ha] at hu
      cases hu
      exact .blank rfl (by simp) (by simp)
    | some id =>
      rw [ha] at hu
      cases hu
      refine .of_cleared rfl (fun key hb => ?_) (by simp) ?_
      · exact h.cleared _ id (by simp [Pc.cleared, Pc.started, Pc.posted, ha]) key (hbears hb)
      · rintro _ _ _ ⟨⟩
        exact (hh.started j rfl).1
  | nrpPost r asked name =>
    exact .of_cleared rfl (h.cleared _ asked rfl) (by simp) (by simp)
  | upload r hfree _ _ htk =>
    cases htk with
    | waits x hx _ _ hu =>
      cases hu
      exact .blank rfl (by simp) (by simp)
    | draws hd => exact .blank rfl (by simp) (by simp)
  | before | nrpAsks =>
    exact ⟨by simp [Pc.cleared, Pc.started, Pc.posted], by simp, by simp, by simp⟩
  | pass _ _ hnx | passes _ _ _ _ _ hnx =>
    cases hnx with
    | next _ _ _ _ _ hc => cases hc <;> exact .blank rfl (by simp) (by simp)
  | _ => exact .blank rfl (by simp) (by simp)

structure Ids (s : St) : Prop where
  locked : Locked s
  names : Names s
  holds : Holds One Checked s

theorem ids_step (s : St) (act : Act) (s' : St) (h : Ids s) (hc : Careful s act)
    (hs : program.step s act = some s') : Ids s' := by
  refine ⟨locked_step h.locked hs, names_step s act s' h.names hs, ?_⟩
  refine Holds.step (P := program) (C := fun s act => (Locked s ∧ Names s) ∧ Careful s act)
    (fun s i r h hcond hr => ?_) (fun s t c pc w a h hcond ht hv => ?_)
    (fun s t pc a r h hcond ht hr => ?_) (fun s e w g h hcond he => ?_)
    s act s' h.holds ⟨⟨h.locked, h.names⟩, hc⟩ hs
  · have hmem := (start_cases (w := s.world) hr).2.2
    have hb {key : Key} {owner : Owner} {id : String} (hb : Bears s.world r.mem key owner id) :
        Bears s.world s.mem key owner id := by
      rw [hmem] at hb
      exact hb
    refine ⟨fun k k' owner id hk hk' => h.shared k k' owner id (hb hk) (hb hk'), fun pc hn => ?_,
      fun t pc a _ hh => hh.mono (fun key owner id _ => hb) fun n owner hd => ?_⟩
    · rcases (start_cases (w := s.world) hr).1 with hnone | ⟨pc', hp, hcases⟩
      · simp [hnone] at hn
      · obtain rfl : pc' = pc := Option.some.inj (hp.symm.trans hn)
        rcases hcases with ⟨_, rfl⟩ | ⟨_, rfl⟩ | ⟨_, _, _, rfl⟩ | rfl <;>
          exact .blank rfl (by simp) (by simp)
    · rw [hmem]
      exact hd
  · obtain ⟨⟨hlock, hnames⟩, hcare⟩ := hcond
    have hn := hnames.holds.shared
    have hown := h.each t _ ht
    have hch := (serve_serves hv).1.changes
    refine ⟨h.shared.served hn hown hch, hown.own_served hcare ht hv hn,
      fun j pc' a' hne hj hh => hh.mono (fun key owner id hold hb => ?_) fun _ _ hd => hd⟩
    refine (hch.bears hn hb).resolve_right ?_
    rintro ⟨y, hy, hm⟩
    have hholds := Pc.cleared_holds (hown.marks hy hm).1
    exact hne (hlock.one j t _ _ owner.1 hj ht hold hholds)
  · obtain ⟨⟨hlock, hnames⟩, hcare⟩ := hcond
    have hn := hnames.holds.shared
    have hown := h.each t _ ht
    have hres := resume_resumes hr
    have hall (htouch : ∃ n, Touches s.mem n r.mem) : One s.world r.mem ∧
        ∀ j pc a, j ≠ t → s.at j = some ⟨pc, a⟩ → Checked s.world s.mem pc a →
          Checked s.world r.mem pc a := by
      obtain ⟨n, htouch⟩ := htouch
      refine ⟨fun k k' owner id hk hk' => ?_, fun j pc' a' _ _ hh => ?_⟩
      · exact h.shared k k' owner id (htouch.bears hn hk) (htouch.bears hn hk')
      · exact hh.mono (fun key owner id _ => htouch.bears hn) htouch.drawn
    cases hnx : r.next with
    | none =>
      have hq := hres.quits hnx
      obtain ⟨hone, hothers⟩ := hall ⟨none, fun m u hm => hq.drawn ▸ hm, fun m hm => .inl (hq.given ▸ hm),
        fun m hm => hq.given ▸ hm, fun c x hx => .inl (hq.waiting c x hx)⟩
      exact ⟨hone, by simp, hothers⟩
    | some pc₁ =>
      have hl := hres.next pc₁ hnx
      obtain ⟨n, htouch, -⟩ := hl.books.touches
      obtain ⟨hone, hothers⟩ := hall ⟨n, htouch⟩
      refine ⟨hone, fun pc' hp => ?_, hothers⟩
      obtain rfl := Option.some.inj hp
      exact hown.next hcare ht hn (hnames.holds.each t _ ht) hl
  · obtain ⟨⟨-, hnames⟩, -⟩ := hcond
    obtain ⟨rfl, hhap⟩ := env_happens he
    obtain ⟨x, hch, hx⟩ := hhap.changes
    have hb {key : Key} {owner : Owner} {id : String} (hb : Bears w s.mem key owner id) :
        Bears s.world s.mem key owner id := by
      rcases hch.bears hnames.holds.shared hb with hold | ⟨y, hy, hm⟩
      · exact hold
      · exact .inr ⟨y, hx y hy, hm⟩
    exact ⟨fun k k' owner id hk hk' => h.shared k k' owner id (hb hk) (hb hk'),
      fun t pc a _ hh => hh.mono (fun key owner id _ => hb) fun _ _ hd => hd⟩

theorem ids_initial (nrp : Bool) (st : Standing) : Ids (initial nrp st) := by
  have hat (t : ℕ) : State.at (initial nrp st) t = none := by simp [State.at, initial]
  refine ⟨⟨by simp [hat], by simp [hat]⟩, names_initial nrp st, fun k k' owner id hb hb' => ?_,
    by simp [hat]⟩
  have hrec {k : Key} (hb : Bears (initial nrp st).world (initial nrp st).mem k owner id) :
      ∃ j, st.jobs.get? k = some j ∧ j.owner = owner ∧ j.jobId = some id := by
    rcases hb with hj | ⟨x, hx, -⟩
    · exact hj
    · simp [initial] at hx
  obtain ⟨j, hj, ho, hi⟩ := hrec hb
  obtain ⟨j', hj', ho', hi'⟩ := hrec hb'
  exact st.unique k k' j j' hj hj' (ho.trans ho'.symm) (by simp [hi]) (hi.trans hi'.symm)

/-- No RayJob at Purdue is sent two jobIds; and where every check for an ID is careful, no two
RayJobs of one user have the same one. -/
theorem unique_of_careful {nrp : Bool} {st : Standing} {acts : List Act} {s : St}
    (hr : program.run (initial nrp st) acts = some s) :
    s.mem.given.Nodup ∧ (program.Along Careful (initial nrp st) acts → Unique s.world.jobs) := by
  refine ⟨?_, fun hc => ?_⟩
  · have hinv := Program.run_invariant (fun s a s' h _ hs => names_step s a s' h hs)
      (names_initial nrp st) (Program.Along.of_forall_mem fun _ _ _ => trivial) hr
    exact hinv.holds.shared.nodup
  · have hinv := Program.run_invariant ids_step (ids_initial nrp st) hc hr
    intro k k' j j' hj hj' ho hne hi
    obtain ⟨id, hid⟩ := Option.ne_none_iff_exists'.mp hne
    exact hinv.holds.shared k k' j.owner id (.inl ⟨j, hj, rfl, hid⟩)
      (.inl ⟨j', hj', ho.symm, hi ▸ hid⟩)

/-- A job on NRP, and another submission of its ID to Purdue as far as the check on NRP. -/
def secondRun : List Act :=
  .call (.submit (nrpRequest "k" "a")) :: answers 0 [.ok, .ok, .ok, .ok, .ok, .ok, .ok] ++
    .call (.submit (request "l" "a")) :: answers 1 [.ok, .ok, .ok]

/-- A RayJob starts, and its submission gives it the jobId. -/
def startedRun (t : ℕ) (key : String) : List Act :=
  answers t [.ok, .ok, .ok] ++
    [.env (.report (hubJob key) ⟨some "head", .new, none⟩), .env (.head "head" (some []))] ++
    answers t [.ok, .bool true, .bool false, .ok]

/-- NRP does not answer the check, and the ID is given twice. -/
theorem not_unique_unanswered :
    ¬∀ nrp st acts s, program.run (initial nrp st) acts = some s →
      s.mem.given.Nodup ∧ Unique s.world.jobs := by
  intro h
  have hany : (program.run (initial true nothing)
      (secondRun ++ answers 1 [.error .never] ++ startedRun 1 "l")).any (fun s =>
        (s.world.jobs.get? (.nrp, hubJob "k")).any (fun j =>
          j.owner = owned hubUser && j.jobId = some "a") &&
        (s.world.jobs.get? (.purdue, hubJob "l")).any fun j =>
          j.owner = owned hubUser && j.jobId = some "a") = true := by
    decide +kernel
  obtain ⟨s, hs, hjobs⟩ := (Option.any_eq_true _ _).mp hany
  rw [Bool.and_eq_true] at hjobs
  obtain ⟨j, hj, hid⟩ := (Option.any_eq_true _ _).mp hjobs.1
  obtain ⟨j', hj', hid'⟩ := (Option.any_eq_true _ _).mp hjobs.2
  simp only [Bool.and_eq_true, decide_eq_true_eq] at hid hid'
  have heq := (h true nothing _ s hs).2 _ _ j j' hj hj' (hid.1.trans hid'.1.symm) (by simp [hid.2])
    (hid.2.trans hid'.2.symm)
  cases heq

/-- NRP answers the checks of two submissions, one to each site, of different IDs. -/
theorem unique_of_careful_both :
    let acts := .call (.submit (nrpRequest "k" "a")) :: answers 0 [.ok, .ok, .ok, .ok, .ok, .ok, .ok] ++
      .call (.submit (request "l" "b")) :: answers 1 [.ok, .ok, .ok, .ok] ++ startedRun 1 "l"
    ∃ s, program.run (initial true nothing) acts = some s ∧ s.mem.given.Nodup ∧
      Unique s.world.jobs ∧
      (s.world.jobs.get? (.purdue, hubJob "l")).any (fun j => j.jobId = some "b") = true := by
  intro acts
  have hc : program.Along Careful (initial true nothing) acts := by decide +kernel
  have hany : (program.run (initial true nothing) acts).any (fun s =>
      (s.world.jobs.get? (.purdue, hubJob "l")).any fun j => j.jobId = some "b") = true := by
    decide +kernel
  obtain ⟨s, hs, hjob⟩ := (Option.any_eq_true _ _).mp hany
  obtain ⟨hnodup, hunique⟩ := unique_of_careful hs
  exact ⟨s, hs, hnodup, hunique hc, hjob⟩

end PurdueAF.RaySubmissions

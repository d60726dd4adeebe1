import PurdueAF.HubGpuGateSafety

/-!
# Whose the Hub's reservations are

A call that raises touches nobody else's reservations and adds none, and a spawner whose
calls do not overlap holds what its latest call was admitted with.
-/
namespace PurdueAF.HubGpuGate

open Coroutine

/-- A text is split at its last slash in one way only. -/
theorem append_slash_inj {a a' b b' : List Char} (hb : '/' ∉ b) (hb' : '/' ∉ b')
    (h : a ++ '/' :: b = a' ++ '/' :: b') : a = a' ∧ b = b' := by
  rcases List.append_eq_append_iff.mp h with ⟨c, rfl, hc⟩ | ⟨c, rfl, hc⟩
  · cases c with
    | nil => exact ⟨by simp, (List.cons.inj hc).2⟩
    | cons x c =>
      exact absurd (by rw [(List.cons.inj hc).2]; simp) hb
  · cases c with
    | nil => exact ⟨by simp, (List.cons.inj hc).2.symm⟩
    | cons x c =>
      exact absurd (by rw [(List.cons.inj hc).2]; simp) hb'

theorem spawnerKey_injective : Function.Injective spawnerKey := by
  intro sp sp' h
  obtain ⟨user, name, hname⟩ := sp
  obtain ⟨user', name', hname'⟩ := sp'
  have hlist : user.toList ++ '/' :: name.toList = user'.toList ++ '/' :: name'.toList := by
    have hto := congrArg String.toList h
    simpa [spawnerKey] using hto
  obtain ⟨huser, hnm⟩ := append_slash_inj hname hname' hlist
  obtain rfl := String.toList_injective huser
  obtain rfl := String.toList_injective hnm
  rfl

theorem Harmless.of_pruned {e : GateState × GateAction} (sp : Spawner)
    (h : ∀ s', program.step e.1 e.2 = some s' →
      s'.world = e.1.world ∧ Pruned e.1.world e.1.mem.recentGrants s'.mem.recentGrants) :
    Harmless sp e := by
  intro s' hs
  obtain ⟨hworld, hpruned⟩ := h s' hs
  refine ⟨fun other _ => ?_, hpruned.2⟩
  unfold held
  rw [hworld]
  exact heldBy_congr hpruned.1 (spawnerKey other)

theorem held_release {sp other : Spawner} (h : other ≠ sp) (now : ℕ) (gs : List Grant) :
    heldBy now (spawnerKey other) (releaseGrants (spawnerKey sp) gs) =
      heldBy now (spawnerKey other) gs :=
  heldBy_release_ne (fun heq => h (spawnerKey_injective heq)) gs

theorem harmless_call {m : GateState} {i : Call} {sp : Spawner}
    (h : ∀ sp' pod, i = .gate sp' pod → sp' = sp) : Harmless sp (m, .call i) := by
  intro s' hs
  obtain ⟨r, hr, rfl⟩ := Program.step_call hs
  cases i with
  | gate sp' pod =>
    obtain rfl := h sp' pod rfl
    rcases start_gate hr with ⟨hmem, _⟩ | ⟨_, hmem, _⟩
    · have hgs : r.mem.recentGrants = m.mem.recentGrants := congrArg Memory.recentGrants hmem
      exact ⟨fun other _ => by simp only [held, hgs], fun g hg => hgs ▸ hg⟩
    · refine ⟨fun other hne => ?_, fun g hg => ?_⟩
      · simp only [held, hmem]
        exact held_release hne m.world m.mem.recentGrants
      · rw [hmem] at hg
        exact List.mem_of_mem_filter hg
  | form =>
    obtain ⟨hpruned, _⟩ := start_form hr
    exact ⟨fun other _ => heldBy_congr hpruned.1 (spawnerKey other), hpruned.2⟩

theorem harmless_resume_form {m : GateState} {t since : ℕ} {x : Answer} (sp : Spawner)
    (ht : m.at t = some ⟨.form since, some x⟩) : Harmless sp (m, .resume t) := by
  apply Harmless.of_pruned
  intro s' hs
  obtain ⟨pc, x', r, ht', hr, rfl⟩ := Program.step_resume hs
  obtain ⟨rfl, rfl⟩ : Await.form since = pc ∧ x = x' := by simpa using ht.symm.trans ht'
  exact ⟨rfl, (resume_form hr).1⟩

/-- A call of the gate that does not end in admission reserves nothing. -/
theorem harmless_resume_gate {m : GateState} {t since : ℕ} {x : Answer} {sp : Spawner}
    {requested : Requested} {r : Ran Memory Await Event}
    (ht : m.at t = some ⟨.gate sp requested since, some x⟩)
    (hr : resume m.world m.mem (.gate sp requested since) x = some r)
    (hne : r.events ≠ [.admitted sp requested]) : Harmless sp (m, .resume t) := by
  apply Harmless.of_pruned
  intro s' hs
  obtain ⟨pc, x', r', ht', hr', rfl⟩ := Program.step_resume hs
  obtain ⟨rfl, rfl⟩ : Await.gate sp requested since = pc ∧ x = x' := by
    simpa using ht.symm.trans ht'
  obtain rfl : r = r' := Option.some.inj (hr.symm.trans hr')
  rcases (resume_gate hr).2 with ⟨hpruned, _⟩ | ⟨_, _, _, _, _, hevents, _⟩
  · exact ⟨rfl, hpruned⟩
  · exact absurd hevents hne

/-- The steps of one call in a run. -/
def stepsOf (acts : List GateAction) (t : ℕ) : List (GateState × GateAction) :=
  (program.trail initial acts).filter fun e => e.2.mover e.1 = some t

theorem stepsOf_snoc {acts : List GateAction} {m : GateState} (a : GateAction)
    (hr : program.run initial acts = some m) (t : ℕ) :
    stepsOf (acts ++ [a]) t = stepsOf acts t ++ if a.mover m = some t then [(m, a)] else [] := by
  unfold stepsOf
  rw [Program.trail_snoc a hr, List.filter_append, List.filter_singleton]
  by_cases hm : a.mover m = some t <;> simp [hm]

/-- Up to its last step a call is harmless, and so is one that has raised. -/
structure Clean (acts : List GateAction) (s : GateState) : Prop where
  fresh : ∀ t, s.threads.length ≤ t → stepsOf acts t = [] ∧ program.told initial acts t = []
  waiting : ∀ t th sp requested since, s.at t = some th → th.pc = .gate sp requested since →
    program.told initial acts t = [.asked sp] ∧ ∀ e ∈ stepsOf acts t, Harmless sp e
  raised : ∀ t ev sp, ev ∈ program.told initial acts t → ev.raises = true → ev.spawner = some sp →
    ∀ e ∈ stepsOf acts t, Harmless sp e

/-- A step of no call changes nothing of what is said of the calls. -/
theorem Clean.idle {acts : List GateAction} {m m' : GateState} {a : GateAction}
    (h : Clean acts m) (hr : program.run initial acts = some m) (hmover : a.mover m = none)
    (hlen : m.threads.length = m'.threads.length)
    (hpc : ∀ t th', m'.at t = some th' → ∃ th, m.at t = some th ∧ th.pc = th'.pc) :
    Clean (acts ++ [a]) m' := by
  have hsteps (t : ℕ) : stepsOf (acts ++ [a]) t = stepsOf acts t := by
    rw [stepsOf_snoc a hr, hmover]
    simp
  have htold (t : ℕ) : program.told initial (acts ++ [a]) t = program.told initial acts t := by
    rw [told_snoc a hr, hmover]
    simp
  constructor
  · intro t ht
    rw [hsteps, htold]
    exact h.fresh t (hlen ▸ ht)
  · intro t th' sp requested since ht hp
    obtain ⟨th, hth, he⟩ := hpc t th' ht
    rw [hsteps, htold]
    exact h.waiting t th sp requested since hth (he.trans hp)
  · intro t ev sp hev
    rw [htold] at hev
    rw [hsteps]
    exact h.raised t ev sp hev

/-- Call `t` moved on to `next` and told `evs` on the way. -/
theorem Clean.moved {acts : List GateAction} {m m' : GateState} {a : GateAction} {t : ℕ}
    {next : Option Await} {evs : List Event} (h : Clean acts m)
    (hr : program.run initial acts = some m) (hmover : a.mover m = some t)
    (hemits : program.emits m a = evs) (hlen : m.threads.length ≤ m'.threads.length)
    (hlt : t < m'.threads.length) (hat : ∀ j, m'.at j = if t = j then suspend next else m.at j)
    (hgate : ∀ sp requested since, next = some (.gate sp requested since) →
      program.told initial acts t ++ evs = [.asked sp] ∧
        ∀ e ∈ stepsOf acts t ++ [(m, a)], Harmless sp e)
    (hraised : ∀ ev sp, ev ∈ program.told initial acts t ++ evs → ev.raises = true →
      ev.spawner = some sp → ∀ e ∈ stepsOf acts t ++ [(m, a)], Harmless sp e) :
    Clean (acts ++ [a]) m' := by
  have hsteps (j : ℕ) : stepsOf (acts ++ [a]) j = stepsOf acts j ++ if t = j then [(m, a)] else [] := by
    rw [stepsOf_snoc a hr, hmover]
    simp
  have htold (j : ℕ) : program.told initial (acts ++ [a]) j =
      program.told initial acts j ++ if t = j then evs else [] := by
    rw [told_snoc a hr, hmover, hemits]
    simp
  constructor
  · intro j hj
    have hne : t ≠ j := by omega
    rw [hsteps, htold, if_neg hne, if_neg hne, List.append_nil, List.append_nil]
    exact h.fresh j (hlen.trans hj)
  · intro j th sp requested since hj hp
    rw [hat] at hj
    rw [hsteps, htold]
    split_ifs at hj ⊢ with htj
    · subst htj
      obtain ⟨hnext, _⟩ := suspend_eq_some hj
      exact hgate sp requested since (hnext.trans (congrArg some hp))
    · rw [List.append_nil, List.append_nil]
      exact h.waiting j th sp requested since hj hp
  · intro j ev sp hev
    rw [htold] at hev
    rw [hsteps]
    split_ifs at hev ⊢ with htj
    · subst htj
      exact hraised ev sp hev
    · rw [List.append_nil] at hev ⊢
      exact h.raised j ev sp hev

theorem clean_call {acts : List GateAction} {m m' : GateState} {i : Call} (h : Clean acts m)
    (hr : program.run initial acts = some m) (hs : program.step m (.call i) = some m') :
    Clean (acts ++ [.call i]) m' := by
  obtain ⟨r, hstart, rfl⟩ := Program.step_call hs
  obtain ⟨hnone, htold⟩ := h.fresh m.threads.length (le_refl _)
  have hemits : program.emits m (.call i) = r.events := by
    have hst : program.start m.world m.mem i = some r := hstart
    simp [Program.emits, hst]
  apply h.moved hr rfl hemits (by simp) (by simp) (at_append m _ _ _)
  all_goals rw [htold, List.nil_append]
  · intro sp requested since hnext
    rw [hnone, List.nil_append]
    cases i with
    | gate sp' pod =>
      rcases start_gate hstart with ⟨_, hno, _⟩ | ⟨_, _, hgo, hevents, _⟩
      · simp [hno] at hnext
      · obtain ⟨rfl, _⟩ : sp' = sp ∧ _ := by simpa using hgo.symm.trans hnext
        refine ⟨hevents, fun e he => ?_⟩
        obtain rfl := List.mem_singleton.mp he
        exact harmless_call fun _ _ heq => (Call.gate.inj heq).1.symm
    | form =>
      obtain ⟨_, heq⟩ := (start_form hstart).2.1 _ hnext
      cases heq
  · intro ev sp hev _ hsp
    rw [hnone, List.nil_append]
    intro e he
    obtain rfl := List.mem_singleton.mp he
    cases i with
    | gate sp' pod =>
      have hown : ev.spawner = some sp' := by
        rcases start_gate hstart with ⟨_, _, hevents | hevents⟩ | ⟨_, _, _, hevents, _⟩ <;>
          rw [hevents] at hev <;> rw [List.mem_singleton.mp hev] <;> rfl
      obtain rfl : sp' = sp := Option.some.inj (hown.symm.trans hsp)
      exact harmless_call fun _ _ heq => (Call.gate.inj heq).1.symm
    | form =>
      have hnot := (start_form hstart).2.2 ev hev
      simp [hsp] at hnot

theorem clean_resume {acts : List GateAction} {m m' : GateState} {t : ℕ} (h : Clean acts m)
    (hr : program.run initial acts = some m) (hs : program.step m (.resume t) = some m') :
    Clean (acts ++ [.resume t]) m' := by
  obtain ⟨pc, x, r, ht, hres, rfl⟩ := Program.step_resume hs
  have hemits : program.emits m (.resume t) = r.events := by
    simp [Program.emits, ht, hres]
  have hend : r.next = none := resume_ends hres
  have hlt : t < (m.threads.set t (suspend r.next)).length := by
    rw [List.length_set]
    exact lt_of_at ht
  apply h.moved hr rfl hemits (by simp) hlt (fun j => at_set m _ _ t j _ (by simp [ht]))
  · intro sp requested since hnext
    simp [hend] at hnext
  · intro ev sp hev hraises hsp e he
    cases pc with
    | gate sp' requested since =>
      obtain ⟨htold, hquiet⟩ := h.waiting t _ sp' requested since ht rfl
      have hnew : ev ∈ r.events := by
        rw [htold] at hev
        rcases List.mem_append.mp hev with hev | hev
        · rw [List.mem_singleton.mp hev] at hraises
          cases hraises
        · exact hev
      have hown : ev.spawner = some sp' ∧ r.events ≠ [.admitted sp' requested] := by
        rcases (resume_gate hres).2 with ⟨_, ev', hevents, hspawner, _, hnot⟩ | ⟨_, _, _, _, _, hevents, _⟩
        · rw [hevents] at hnew ⊢
          rw [List.mem_singleton.mp hnew]
          exact ⟨hspawner, fun heq => hnot requested (List.singleton_inj.mp heq)⟩
        · rw [hevents] at hnew
          rw [List.mem_singleton.mp hnew] at hraises
          cases hraises
      obtain rfl : sp' = sp := Option.some.inj (hown.1.symm.trans hsp)
      rcases List.mem_append.mp he with he | he
      · exact hquiet e he
      · obtain rfl := List.mem_singleton.mp he
        exact harmless_resume_gate ht hres hown.2
    | form since =>
      have hold : ev ∈ program.told initial acts t := by
        rcases List.mem_append.mp hev with hev | hev
        · exact hev
        · have hnot := (resume_form hres).2.2 ev hev
          simp [hsp] at hnot
      rcases List.mem_append.mp he with he | he
      · exact h.raised t ev sp hold hraises hsp e he
      · obtain rfl := List.mem_singleton.mp he
        exact harmless_resume_form sp ht

theorem clean_step {acts : List GateAction} {m m' : GateState} {a : GateAction} (h : Clean acts m)
    (hr : program.run initial acts = some m) (hs : program.step m a = some m') :
    Clean (acts ++ [a]) m' := by
  cases a with
  | call i => exact clean_call h hr hs
  | resume t => exact clean_resume h hr hs
  | serve t c =>
    obtain ⟨pc, w, x, ht, _, rfl⟩ := Program.step_serve hs
    apply h.idle hr rfl (by simp)
    intro j th' hj
    rw [at_set m _ _ t j _ (by simp [ht])] at hj
    split_ifs at hj with htj
    · exact ⟨_, htj ▸ ht, by rw [← Option.some.inj hj]⟩
    · exact ⟨th', hj, rfl⟩
  | env e =>
    obtain ⟨w, g, _, rfl⟩ := Program.step_env hs
    exact h.idle hr rfl rfl fun t th' ht => ⟨th', ht, rfl⟩

theorem clean_initial : Clean [] initial := by
  constructor
  · intro t _
    exact ⟨rfl, rfl⟩
  · intro t th sp requested since ht
    cases ht
  · intro t ev sp hev
    cases hev

/-- Coroutine `t` is a call of the gate for a pod of which this is requested. -/
def Requests (acts : List GateAction) (t : ℕ) (sp : Spawner) (requested : Requested) : Prop :=
  ∃ e ∈ program.trail initial acts, e.2.mover e.1 = some t ∧ ∃ pod, e.2 = .call (.gate sp pod) ∧
    requests pod = some (true, requested)

/-- What a call awaits with, and what it is admitted with, its pod requests. -/
structure Requesting (acts : List GateAction) (s : GateState) : Prop where
  waiting : ∀ t th sp requested since, s.at t = some th → th.pc = .gate sp requested since →
    Requests acts t sp requested
  admitted : ∀ t sp requested, .admitted sp requested ∈ program.told initial acts t →
    Requests acts t sp requested

theorem Requests.snoc {acts : List GateAction} {m : GateState} {t : ℕ} {sp : Spawner}
    {requested : Requested} (h : Requests acts t sp requested) (a : GateAction)
    (hr : program.run initial acts = some m) : Requests (acts ++ [a]) t sp requested := by
  obtain ⟨e, he, hcall⟩ := h
  refine ⟨e, ?_, hcall⟩
  rw [Program.trail_snoc a hr]
  exact List.mem_append_left _ he

theorem awaits_start {now : ℕ} {mem : Memory} {i : Call} {r : Ran Memory Await Event} {sp : Spawner}
    {requested : Requested} {since : ℕ} (h : start now mem i = some r)
    (hn : r.next = some (.gate sp requested since)) :
    ∃ pod, i = .gate sp pod ∧ requests pod = some (true, requested) := by
  cases i with
  | gate sp' pod =>
    rcases start_gate h with ⟨-, hno, -⟩ | ⟨requested', -, hgo, -, hreq⟩
    · simp [hno] at hn
    · obtain ⟨rfl, rfl, -⟩ : sp' = sp ∧ requested' = requested ∧ _ := by
        simpa using hgo.symm.trans hn
      exact ⟨pod, rfl, hreq⟩
  | form =>
    obtain ⟨since', heq⟩ := (start_form h).2.1 _ hn
    cases heq

theorem not_admitted_start {now : ℕ} {mem : Memory} {i : Call} {r : Ran Memory Await Event}
    (h : start now mem i = some r) (sp : Spawner) (requested : Requested) :
    .admitted sp requested ∉ r.events := by
  intro hev
  cases i with
  | gate sp' pod =>
    rcases start_gate h with ⟨-, -, hevents | hevents⟩ | ⟨-, -, -, hevents, -⟩ <;>
      simp [hevents] at hev
  | form =>
    have hnot := (start_form h).2.2 _ hev
    simp [Event.spawner] at hnot

theorem admitted_resume {now : ℕ} {mem : Memory} {pc : Await} {answer : Answer}
    {r : Ran Memory Await Event} {sp : Spawner} {requested : Requested}
    (h : resume now mem pc answer = some r) (hev : .admitted sp requested ∈ r.events) :
    ∃ since, pc = .gate sp requested since := by
  cases pc with
  | gate sp' requested' since =>
    rcases (resume_gate h).2 with ⟨-, ev, hevents, hown, -, hnot⟩ | ⟨-, -, -, -, -, hevents, -⟩
    · rw [hevents] at hev
      obtain rfl := List.mem_singleton.mp hev
      obtain rfl : sp = sp' := Option.some.inj hown
      exact absurd rfl (hnot requested)
    · rw [hevents] at hev
      cases List.mem_singleton.mp hev
      exact ⟨since, rfl⟩
  | form since =>
    have hnot := (resume_form h).2.2 _ hev
    simp [Event.spawner] at hnot

theorem requesting_step {acts : List GateAction} {m m' : GateState} {a : GateAction}
    (h : Requesting acts m) (hr : program.run initial acts = some m)
    (hs : program.step m a = some m') : Requesting (acts ++ [a]) m' := by
  have hold (hwait : ∀ t th' sp requested since, m'.at t = some th' →
        th'.pc = .gate sp requested since → Requests (acts ++ [a]) t sp requested)
      (hemits : ∀ t sp requested, a.mover m = some t → .admitted sp requested ∈ program.emits m a →
        Requests acts t sp requested) : Requesting (acts ++ [a]) m' := by
    refine ⟨hwait, fun t sp requested hev => ?_⟩
    rw [told_snoc a hr, List.mem_append] at hev
    rcases hev with hev | hev
    · exact (h.admitted t sp requested hev).snoc a hr
    · split_ifs at hev with hmover
      · exact (hemits t sp requested hmover hev).snoc a hr
      · cases hev
  cases a with
  | call i =>
    obtain ⟨r, hstart, rfl⟩ := Program.step_call hs
    have hst : program.start m.world m.mem i = some r := hstart
    refine hold (fun t th sp requested since ht hp => ?_) fun t sp requested _ hev => ?_
    · rw [at_append] at ht
      split_ifs at ht with heq
      · obtain ⟨hnext, -⟩ := suspend_eq_some ht
        obtain ⟨pod, rfl, hreq⟩ := awaits_start hstart (hp ▸ hnext)
        refine ⟨(m, .call (.gate sp pod)), ?_, congrArg some heq, pod, rfl, hreq⟩
        rw [Program.trail_snoc _ hr]
        exact List.mem_append_right _ (List.mem_singleton_self _)
      · exact (h.waiting t th sp requested since ht hp).snoc _ hr
    · have hemits : program.emits m (.call i) = r.events := by simp [Program.emits, hst]
      exact absurd (hemits ▸ hev) (not_admitted_start hstart sp requested)
  | resume t =>
    obtain ⟨pc, x, r, ht, hres, rfl⟩ := Program.step_resume hs
    have hemits : program.emits m (.resume t) = r.events := by simp [Program.emits, ht, hres]
    refine hold (fun j th sp requested since hj hp => ?_) fun j sp requested hmover hev => ?_
    · rw [at_set m _ _ t j _ (by simp [ht])] at hj
      split_ifs at hj with htj
      · simp [resume_ends hres, suspend] at hj
      · exact (h.waiting j th sp requested since hj hp).snoc _ hr
    · obtain rfl : t = j := Option.some.inj hmover
      obtain ⟨since, rfl⟩ := admitted_resume hres (hemits ▸ hev)
      exact h.waiting t _ sp requested since ht rfl
  | serve t c =>
    obtain ⟨pc, w, x, ht, _, rfl⟩ := Program.step_serve hs
    refine hold (fun j th sp requested since hj hp => ?_) fun j sp requested hmover _ => ?_
    · rw [at_set m _ _ t j _ (by simp [ht])] at hj
      split_ifs at hj with htj
      · obtain rfl := Option.some.inj hj
        subst htj
        exact (h.waiting t _ sp requested since ht hp).snoc _ hr
      · exact (h.waiting j th sp requested since hj hp).snoc _ hr
    · cases hmover
  | env e =>
    obtain ⟨w, g, _, rfl⟩ := Program.step_env hs
    exact hold (fun j th sp requested since hj hp => (h.waiting j th sp requested since hj hp).snoc _ hr)
      fun j sp requested hmover _ => by cases hmover

theorem requesting_initial : Requesting [] initial := by
  constructor
  · intro t th sp requested since ht
    cases ht
  · intro t sp requested hev
    cases hev

def deedsOf (sp : Spawner) (acts : List GateAction) : List Deed :=
  (program.trail initial acts).flatMap (deeds sp)

theorem deedsOf_snoc {acts : List GateAction} {m : GateState} (sp : Spawner) (a : GateAction)
    (hr : program.run initial acts = some m) :
    deedsOf sp (acts ++ [a]) = deedsOf sp acts ++ deeds sp (m, a) := by
  unfold deedsOf
  rw [Program.trail_snoc a hr, List.flatMap_append]
  simp

theorem entitled_later {now later : ℕ} (hle : now ≤ later) (sp : Spawner) (d : Option Deed) :
    entitled sp later d = (entitled sp now d).filter (alive later) := by
  unfold entitled
  split
  · rw [List.filter_filter]
    apply List.filter_congr
    intro g _
    by_cases hl : alive later g = true
    · simp [hl, alive_of_later hle hl]
    · simp [hl]
  · rfl

/-- The spawner holds what its latest deed entitles it to, which is nothing while a call of
it awaits, and it has one such call at most. -/
structure Settled (sp : Spawner) (acts : List GateAction) (s : GateState) : Prop where
  held : held s sp = entitled sp s.world (deedsOf sp acts).getLast?
  waiting : ∀ t th requested since, s.at t = some th → th.pc = .gate sp requested since →
    ∀ now, entitled sp now (deedsOf sp acts).getLast? = []
  one : ∀ t t' th th' requested requested' since since', s.at t = some th → s.at t' = some th' →
    th.pc = .gate sp requested since → th'.pc = .gate sp requested' since' → t = t'

/-- A step that is no deed of the spawner's and starts no call of it. -/
theorem Settled.quiet {sp : Spawner} {acts : List GateAction} {m m' : GateState} {a : GateAction}
    (h : Settled sp acts m) (hr : program.run initial acts = some m) (hd : deeds sp (m, a) = [])
    (hheld : HubGpuGate.held m' sp = entitled sp m'.world (deedsOf sp acts).getLast?)
    (hpc : ∀ t th' requested since, m'.at t = some th' → th'.pc = .gate sp requested since →
      ∃ th, m.at t = some th ∧ th.pc = th'.pc) : Settled sp (acts ++ [a]) m' := by
  have hsame : deedsOf sp (acts ++ [a]) = deedsOf sp acts := by
    rw [deedsOf_snoc sp a hr, hd, List.append_nil]
  constructor
  · rw [hsame]
    exact hheld
  · intro t th' requested since ht hp
    obtain ⟨th, hth, he⟩ := hpc t th' requested since ht hp
    rw [hsame]
    exact h.waiting t th requested since hth (he.trans hp)
  · intro t t' th th' requested requested' since since' ht ht' hp hp'
    obtain ⟨x, hx, he⟩ := hpc t th requested since ht hp
    obtain ⟨x', hx', he'⟩ := hpc t' th' requested' since' ht' hp'
    exact h.one t t' x x' requested requested' since since' hx hx' (he.trans hp) (he'.trans hp')

/-- A step that is the spawner's latest deed, after which it has at most the call `t`
awaiting, and then nothing. -/
theorem Settled.deed {sp : Spawner} {acts : List GateAction} {m m' : GateState} {a : GateAction}
    {d : Deed} (hr : program.run initial acts = some m) (hd : deeds sp (m, a) = [d])
    (hheld : HubGpuGate.held m' sp = entitled sp m'.world (some d))
    (hnone : (∀ now, entitled sp now (some d) = []) ∨
      ∀ t th requested since, m'.at t = some th → th.pc ≠ .gate sp requested since)
    (hone : ∀ t t' th th' requested requested' since since', m'.at t = some th →
      m'.at t' = some th' → th.pc = .gate sp requested since →
      th'.pc = .gate sp requested' since' → t = t') : Settled sp (acts ++ [a]) m' := by
  have hlast : (deedsOf sp (acts ++ [a])).getLast? = some d := by
    rw [deedsOf_snoc sp a hr, hd]
    simp
  constructor
  · rw [hlast]
    exact hheld
  · intro t th requested since ht hp now
    rw [hlast]
    rcases hnone with hnone | hnone
    · exact hnone now
    · exact absurd hp (hnone t th requested since ht)
  · exact hone

theorem deeds_of_events (sp : Spawner) {m : GateState} {a : GateAction} {evs : List Event}
    (hemits : program.emits m a = evs) (ha : ∀ e, a ≠ .env e) :
    deeds sp (m, a) = (evs.filter fun ev => ev.asks && ev.spawner = some sp).map
      fun ev => .call ev m.world := by
  subst hemits
  cases a with
  | env e => exact absurd rfl (ha e)
  | _ => rfl

theorem settled_call {sp : Spawner} {acts : List GateAction} {m m' : GateState} {i : Call}
    (h : Settled sp acts m) (hr : program.run initial acts = some m)
    (halone : Alone sp m (.call i)) (hs : program.step m (.call i) = some m') :
    Settled sp (acts ++ [.call i]) m' := by
  obtain ⟨r, hstart, rfl⟩ := Program.step_call hs
  have hemits : program.emits m (.call i) = r.events := by
    have hst : program.start m.world m.mem i = some r := hstart
    simp [Program.emits, hst]
  have hdeeds := deeds_of_events sp hemits (by simp)
  -- a new call that does not await for the spawner leaves its calls as they were
  have hothers (hnext : ∀ requested since, r.next ≠ some (.gate sp requested since)) (t : ℕ)
      (th' : Suspended Await Answer) (requested : Requested) (since : ℕ)
      (ht : State.at ⟨m.world, r.mem, m.threads ++ [suspend r.next]⟩ t = some th')
      (hp : th'.pc = .gate sp requested since) : ∃ th, m.at t = some th ∧ th.pc = th'.pc := by
    rw [at_append] at ht
    split_ifs at ht
    · obtain ⟨hn, _⟩ := suspend_eq_some ht
      exact absurd (hn.trans (congrArg some hp)) (hnext requested since)
    · exact ⟨th', ht, rfl⟩
  cases i with
  | form =>
    obtain ⟨hpruned, hnext, hspawner⟩ := start_form hstart
    apply h.quiet hr
    · rw [hdeeds, List.map_eq_nil_iff, List.filter_eq_nil_iff]
      intro ev hev
      simp [hspawner ev hev]
    · rw [← h.held]
      exact heldBy_congr hpruned.1 (spawnerKey sp)
    · apply hothers
      intro requested since hn
      obtain ⟨_, heq⟩ := hnext _ hn
      cases heq
  | gate sp' pod =>
    rcases start_gate hstart with ⟨hmem, hnext, hevents⟩ | ⟨requested, hmem, hnext, hevents, _⟩
    · apply h.quiet hr
      · rw [hdeeds]
        rcases hevents with hevents | hevents <;> rw [hevents] <;> rfl
      · rw [← h.held]
        simp only [HubGpuGate.held, hmem]
      · exact hothers fun requested since hn => by simp [hnext] at hn
    · by_cases hsp : sp' = sp
      · subst hsp
        apply Settled.deed (d := .call (.asked sp') m.world) hr
        · rw [hdeeds, hevents]
          simp [Event.asks, Event.spawner]
        · simp only [HubGpuGate.held, hmem]
          exact heldBy_release_self m.world (spawnerKey sp') m.mem.recentGrants
        · exact .inl fun _ => rfl
        · have honly (t : ℕ) (th : Suspended Await Answer) (q : Requested) (since : ℕ)
              (ht : State.at ⟨m.world, r.mem, m.threads ++ [suspend r.next]⟩ t = some th)
              (hp : th.pc = .gate sp' q since) : t = m.threads.length := by
            rw [at_append] at ht
            split_ifs at ht with hlen
            · exact hlen.symm
            · have hnot := halone rfl th (mem_suspended.mpr ⟨t, ht⟩)
              exact absurd (by rw [hp]; rfl) hnot
          intro t t' th th' q q' since since' ht ht' hp hp'
          rw [honly t th q since ht hp, honly t' th' q' since' ht' hp']
      · apply h.quiet hr
        · rw [hdeeds, hevents]
          simp [Event.spawner, hsp]
        · rw [← h.held]
          simp only [HubGpuGate.held, hmem]
          exact held_release (fun heq => hsp heq.symm) m.world m.mem.recentGrants
        · apply hothers
          intro q since hn
          obtain ⟨heq, _⟩ : sp' = sp ∧ _ := by simpa using hnext.symm.trans hn
          exact hsp heq

theorem settled_resume {sp : Spawner} {acts : List GateAction} {m m' : GateState} {t : ℕ}
    (h : Settled sp acts m) (hr : program.run initial acts = some m)
    (hs : program.step m (.resume t) = some m') : Settled sp (acts ++ [.resume t]) m' := by
  obtain ⟨pc, x, r, ht, hres, rfl⟩ := Program.step_resume hs
  have hemits : program.emits m (.resume t) = r.events := by
    simp [Program.emits, ht, hres]
  have hdeeds := deeds_of_events sp hemits (by simp)
  have hend : r.next = none := resume_ends hres
  -- the call has ended, and the others are where they were
  have hat (j : ℕ) (th : Suspended Await Answer)
      (hj : State.at ⟨m.world, r.mem, m.threads.set t (suspend r.next)⟩ j = some th) :
      j ≠ t ∧ m.at j = some th := by
    rw [at_set m _ _ t j _ (by simp [ht]), hend] at hj
    split_ifs at hj with htj
    · cases hj
    · exact ⟨Ne.symm htj, hj⟩
  cases pc with
  | form since =>
    obtain ⟨hpruned, _, hspawner⟩ := resume_form hres
    apply h.quiet hr
    · rw [hdeeds, List.map_eq_nil_iff, List.filter_eq_nil_iff]
      intro ev hev
      simp [hspawner ev hev]
    · rw [← h.held]
      exact heldBy_congr hpruned.1 (spawnerKey sp)
    · exact fun j th' _ _ hj _ => ⟨th', (hat j th' hj).2, rfl⟩
  | gate sp' requested since =>
    by_cases hsp : sp' = sp
    · subst hsp
      have hnothing : heldBy m.world (spawnerKey sp') m.mem.recentGrants = [] :=
        h.held.trans (h.waiting t _ requested since ht rfl m.world)
      have hgone (j : ℕ) (th : Suspended Await Answer) (q : Requested) (since' : ℕ)
          (hj : State.at ⟨m.world, r.mem, m.threads.set t (suspend r.next)⟩ j = some th) :
          th.pc ≠ .gate sp' q since' := by
        intro hp
        obtain ⟨hjt, hj⟩ := hat j th hj
        exact hjt (h.one j t th _ q requested since' since hj ht hp rfl)
      have hone (j j' : ℕ) (th th' : Suspended Await Answer) (q q' : Requested) (since' since'' : ℕ)
          (hj : State.at ⟨m.world, r.mem, m.threads.set t (suspend r.next)⟩ j = some th)
          (_ : State.at ⟨m.world, r.mem, m.threads.set t (suspend r.next)⟩ j' = some th')
          (hp : th.pc = .gate sp' q since') (_ : th'.pc = .gate sp' q' since'') : j = j' :=
        absurd hp (hgone j th q since' hj)
      rcases (resume_gate hres).2 with ⟨hpruned, ev, hevents, hspawner, hasks, hnot⟩ |
        ⟨_, gs, _, hpruned, hgs, hevents, _⟩
      · have hno (now : ℕ) : entitled sp' now (some (.call ev m.world)) = [] := by
          cases ev with
          | admitted sp'' q =>
            obtain rfl : sp'' = sp' := Option.some.inj hspawner
            exact absurd rfl (hnot q)
          | _ => rfl
        apply Settled.deed (d := .call ev m.world) hr
        · rw [hdeeds, hevents]
          simp [hasks, hspawner]
        · rw [hno]
          exact (heldBy_congr hpruned.1 (spawnerKey sp')).trans hnothing
        · exact .inl hno
        · exact hone
      · apply Settled.deed (d := .call (.admitted sp' requested) m.world) hr
        · rw [hdeeds, hevents]
          simp [Event.asks, Event.spawner]
        · have hall : (reservations m.world (spawnerKey sp') requested).filter (alive m.world) =
              reservations m.world (spawnerKey sp') requested :=
            List.filter_eq_self.mpr fun g hg => alive_of_mem_reservations hg
          have hbefore : heldBy m.world (spawnerKey sp') gs = [] :=
            (heldBy_congr hpruned.1 (spawnerKey sp')).trans hnothing
          have hnew := heldBy_reservations_self m.world (spawnerKey sp') requested
          unfold heldBy at hbefore hnew
          simp only [HubGpuGate.held, entitled, hgs, List.filter_append, hall, hbefore, hnew,
            List.nil_append]
        · exact .inr hgone
        · exact hone
    · have hsame : heldBy m.world (spawnerKey sp) r.mem.recentGrants =
          heldBy m.world (spawnerKey sp) m.mem.recentGrants := by
        rcases (resume_gate hres).2 with ⟨hpruned, _⟩ | ⟨_, gs, _, hpruned, hgs, _⟩
        · exact heldBy_congr hpruned.1 (spawnerKey sp)
        · have hkey : spawnerKey sp ≠ spawnerKey sp' :=
            fun heq => hsp (spawnerKey_injective heq).symm
          have hnew : heldBy m.world (spawnerKey sp)
              (reservations m.world (spawnerKey sp') requested) = [] :=
            heldBy_reservations_ne hkey requested
          have hbefore := heldBy_congr hpruned.1 (spawnerKey sp)
          unfold heldBy at hnew hbefore ⊢
          rw [hgs, List.filter_append, hnew, List.append_nil, hbefore]
      apply h.quiet hr
      · rw [hdeeds, List.map_eq_nil_iff, List.filter_eq_nil_iff]
        intro ev hev
        have hown : ev.spawner = some sp' := by
          rcases (resume_gate hres).2 with ⟨_, ev', hevents, hspawner, _⟩ |
            ⟨_, _, _, _, _, hevents, _⟩
          · rw [hevents] at hev
            rw [List.mem_singleton.mp hev]
            exact hspawner
          · rw [hevents] at hev
            rw [List.mem_singleton.mp hev]
            rfl
        simp [hown, hsp]
      · rw [← h.held]
        exact hsame
      · exact fun j th' _ _ hj _ => ⟨th', (hat j th' hj).2, rfl⟩

theorem settled_step {sp : Spawner} {acts : List GateAction} {m m' : GateState} {a : GateAction}
    (hr : program.run initial acts = some m) (halone : Alone sp m a) (h : Settled sp acts m)
    (hs : program.step m a = some m') : Settled sp (acts ++ [a]) m' := by
  cases a with
  | call i => exact settled_call h hr halone hs
  | resume t => exact settled_resume h hr hs
  | serve t c =>
    obtain ⟨pc, w, x, ht, hv, rfl⟩ := Program.step_serve hs
    obtain ⟨rfl, rfl⟩ := Prod.mk.inj (Option.some.inj hv)
    apply h.quiet hr
    · rfl
    · exact h.held
    · intro j th' _ _ hj _
      rw [at_set m _ _ t j _ (by simp [ht])] at hj
      split_ifs at hj with htj
      · exact ⟨_, htj ▸ ht, by rw [← Option.some.inj hj]⟩
      · exact ⟨th', hj, rfl⟩
  | env e =>
    obtain ⟨w, g, he, rfl⟩ := Program.step_env hs
    cases e with
    | tick d =>
      obtain ⟨rfl, rfl⟩ := Prod.mk.inj (Option.some.inj he)
      have hle : m.world ≤ m.world + d := Nat.le_add_right _ _
      apply h.quiet hr
      · rfl
      · have hnow : heldBy m.world (spawnerKey sp) m.mem.recentGrants = _ := h.held
        exact (heldBy_later hle _ _).trans (by rw [hnow, ← entitled_later hle])
      · exact fun t th' _ _ ht _ => ⟨th', ht, rfl⟩
    | stop sp' =>
      obtain ⟨rfl, rfl⟩ := Prod.mk.inj (Option.some.inj he)
      by_cases hsp : sp' = sp
      · subst hsp
        apply Settled.deed (d := .stopped) hr
        · simp [deeds]
        · exact heldBy_release_self m.world (spawnerKey sp') m.mem.recentGrants
        · exact .inl fun _ => rfl
        · exact h.one
      · apply h.quiet hr
        · simp [deeds, hsp]
        · rw [← h.held]
          exact held_release (fun heq => hsp heq.symm) m.world m.mem.recentGrants
        · exact fun t th' _ _ ht _ => ⟨th', ht, rfl⟩

theorem settled_initial (sp : Spawner) : Settled sp [] initial := by
  constructor
  · rfl
  · intro t th requested since ht
    cases ht
  · intro t t' th th' requested requested' since since' ht
    cases ht

theorem gate_of_run {F : Free} {acts : List GateAction} {s : GateState}
    (hr : program.run initial acts = some s) (hF : program.Along (Answers F) initial acts) :
    (∀ resource, reserved s resource ≤ (F.get? resource).getD 0) ∧
    (∀ t ev sp, ev ∈ program.told initial acts t → ev.raises = true → ev.spawner = some sp →
      ∀ e ∈ program.trail initial acts, e.2.mover e.1 = some t → Harmless sp e) ∧
    (∀ sp, program.Along (Alone sp) initial acts →
      held s sp =
        entitled sp s.world ((program.trail initial acts).flatMap (deeds sp)).getLast?) ∧
    ∀ t sp requested, .admitted sp requested ∈ program.told initial acts t →
      ∃ e ∈ program.trail initial acts, e.2.mover e.1 = some t ∧
        ∃ pod, e.2 = .call (.gate sp pod) ∧ ∀ time resource,
          (reservations time (spawnerKey sp) requested).countP (fun g => g.resource = resource) =
            asksFor pod resource := by
  have hwithin : Holds (Within F) (Awaits F) s := by
    apply Program.run_invariant (within_step F) _ hF hr
    constructor
    · intro resource
      exact Nat.zero_le _
    · intro t th ht
      cases ht
  have hclean : Clean acts s :=
    Program.run_history clean_initial (fun acts m a m' hrun h hs => clean_step h hrun hs) hr
  have hrequesting : Requesting acts s :=
    Program.run_history requesting_initial (fun acts m a m' hrun h hs => requesting_step h hrun hs) hr
  refine ⟨hwithin.shared, fun t ev sp hev hraises hsp e he hmover => ?_, fun sp halone => ?_,
    fun t sp requested hev => ?_⟩
  · apply hclean.raised t ev sp hev hraises hsp e
    exact List.mem_filter.mpr ⟨he, by simpa using hmover⟩
  · have hsettled : Settled sp acts s := Program.run_history_along (settled_initial sp)
      (fun acts m a m' hrun hc h hs => settled_step hrun hc h hs) halone hr
    exact hsettled.held
  · obtain ⟨e, he, hmover, pod, hcall, hreq⟩ := hrequesting.admitted t sp requested hev
    exact ⟨e, he, hmover, pod, hcall, fun time resource => countP_requests hreq time _ resource⟩

def alice : Spawner := ⟨"alice", "", by decide⟩

def bob : Spawner := ⟨"bob", "gpu", by decide⟩

def twoContainers : Pod :=
  [[("nvidia.com/gpu", some 1)], [("nvidia.com/gpu", some 1), ("nvidia.com/mig-1g.5gb", some 2)]]

def freeTwo : Free := [("nvidia.com/gpu", 2), ("nvidia.com/mig-1g.5gb", 7)]

/-- Both calls await before either is answered: a session of two containers with a GPU each is
admitted, and the other is refused its one. -/
def rivals : List GateAction :=
  [.call (.gate alice twoContainers), .call (.gate bob [[("nvidia.com/gpu", some 1)]]),
    .serve 0 (.counts (some freeTwo)), .serve 1 (.counts (some freeTwo)), .resume 0, .resume 1,
    .env (.tick (nanoseconds 60))]

theorem gate_of_run_rivals :
    ∃ s, program.run initial rivals = some s ∧ reserved s "nvidia.com/gpu" = 2 ∧
      reserved s "nvidia.com/gpu" ≤ (freeTwo.get? "nvidia.com/gpu").getD 0 ∧
      (∃ ev, ev ∈ program.told initial rivals 1 ∧ ev.raises = true ∧ ev.spawner = some bob ∧
        ∀ e ∈ program.trail initial rivals, e.2.mover e.1 = some 1 → Harmless bob e) ∧
      held s alice = entitled alice s.world
        ((program.trail initial rivals).flatMap (deeds alice)).getLast? ∧
      (held s alice).length = 4 ∧
      ∃ requested pod, .admitted alice requested ∈ program.told initial rivals 0 ∧
        ∀ time resource, (reservations time (spawnerKey alice) requested).countP
          (fun g => g.resource = resource) = asksFor pod resource := by
  have hrun : (program.run initial rivals).any (fun s =>
      reserved s "nvidia.com/gpu" = 2 ∧ (held s alice).length = 4) = true := by decide +kernel
  have htold : (program.told initial rivals 1).any (fun ev =>
      ev.raises ∧ ev.spawner = some bob) = true := by decide +kernel
  have hadmitted : .admitted alice [("nvidia.com/gpu", 2), ("nvidia.com/mig-1g.5gb", 2)] ∈
      program.told initial rivals 0 := by decide +kernel
  obtain ⟨s, hs, hcounts⟩ := Option.any_eq_true _ _ |>.mp hrun
  obtain ⟨htwo, hfour⟩ := of_decide_eq_true hcounts
  obtain ⟨ev, hev, hboth⟩ := List.any_eq_true.mp htold
  obtain ⟨hraises, hbob⟩ := of_decide_eq_true hboth
  obtain ⟨hsum, hcalls, hheld, hasked⟩ := gate_of_run (F := freeTwo) hs (by decide +kernel)
  obtain ⟨e, -, -, pod, -, hcount⟩ := hasked 0 alice _ hadmitted
  exact ⟨s, hs, htwo, hsum _, ⟨ev, hev, hraises, hbob, hcalls 1 ev bob hev hraises hbob⟩,
    hheld alice (by decide +kernel), hfour, _, pod, hadmitted, hcount⟩

end PurdueAF.HubGpuGate

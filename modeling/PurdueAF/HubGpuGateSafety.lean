import PurdueAF.HubGpuGate

/-!
# What the Hub's reservations add up to

What each coroutine of the gate does to the reservations, and from it that the count of
live ones stays within what Prometheus reports.
-/
namespace PurdueAF.HubGpuGate

open Coroutine

theorem alive_now (now : ℕ) (resource owner : String) : alive now ⟨now, resource, owner⟩ = true := by
  simp [alive, grantTtl, nanoseconds]

theorem alive_of_later {now later : ℕ} {g : Grant} (hle : now ≤ later)
    (h : alive later g = true) : alive now g = true := by
  simp only [alive, decide_eq_true_eq] at *
  omega

/-- The live reservations under a key. -/
def heldBy (now : ℕ) (key : String) (gs : List Grant) : List Grant :=
  gs.filter fun g => alive now g && g.owner = key

theorem heldBy_congr {now : ℕ} {gs gs' : List Grant}
    (h : gs'.filter (alive now) = gs.filter (alive now)) (key : String) :
    heldBy now key gs' = heldBy now key gs := by
  have hsplit (l : List Grant) :
      heldBy now key l = (l.filter (alive now)).filter fun g => g.owner = key := by
    rw [List.filter_filter]
    simp only [heldBy, Bool.and_comm]
  rw [hsplit, hsplit, h]

theorem heldBy_release_self (now : ℕ) (key : String) (gs : List Grant) :
    heldBy now key (releaseGrants key gs) = [] := by
  rw [heldBy, releaseGrants, List.filter_filter, List.filter_eq_nil_iff]
  simp

theorem heldBy_release_ne {now : ℕ} {key owner : String} (h : key ≠ owner) (gs : List Grant) :
    heldBy now key (releaseGrants owner gs) = heldBy now key gs := by
  rw [heldBy, heldBy, releaseGrants, List.filter_filter]
  apply List.filter_congr
  intro g _
  by_cases hg : g.owner = key
  · simp [hg, h]
  · simp [hg]

theorem heldBy_later {now later : ℕ} (hle : now ≤ later) (key : String) (gs : List Grant) :
    heldBy later key gs = (heldBy now key gs).filter (alive later) := by
  rw [heldBy, heldBy, List.filter_filter]
  apply List.filter_congr
  intro g _
  by_cases hl : alive later g = true
  · simp [hl, alive_of_later hle hl]
  · simp [hl]

theorem mem_reservations {now : ℕ} {owner : String} {requested : Requested} {g : Grant}
    (h : g ∈ reservations now owner requested) : g.time = now ∧ g.owner = owner := by
  simp only [reservations, List.mem_flatMap, List.mem_replicate] at h
  obtain ⟨_, _, _, rfl⟩ := h
  exact ⟨rfl, rfl⟩

theorem alive_of_mem_reservations {now : ℕ} {owner : String} {requested : Requested} {g : Grant}
    (h : g ∈ reservations now owner requested) : alive now g = true := by
  obtain ⟨time, resource, own⟩ := g
  obtain ⟨rfl, _⟩ := mem_reservations h
  exact alive_now _ _ _

theorem heldBy_reservations_self (now : ℕ) (key : String) (requested : Requested) :
    heldBy now key (reservations now key requested) = reservations now key requested := by
  apply List.filter_eq_self.mpr
  intro g hg
  simp [alive_of_mem_reservations hg, (mem_reservations hg).2]

theorem heldBy_reservations_ne {now : ℕ} {key owner : String} (h : key ≠ owner)
    (requested : Requested) : heldBy now key (reservations now owner requested) = [] := by
  apply List.filter_eq_nil_iff.mpr
  intro g hg
  simp [(mem_reservations hg).2, Ne.symm h]

theorem countP_reservations_not_mem {now : ℕ} {owner resource : String} {requested : Requested}
    (h : resource ∉ requested.map Prod.fst) :
    (reservations now owner requested).countP (fun g => g.resource = resource) = 0 := by
  rw [List.countP_eq_zero]
  intro g hg
  simp only [reservations, List.mem_flatMap, List.mem_replicate] at hg
  obtain ⟨e, he, _, rfl⟩ := hg
  have hne : e.1 ≠ resource := by
    rintro rfl
    exact h (List.mem_map_of_mem he)
  simpa using hne

/-- A resource is reserved as often as it was requested. -/
theorem countP_reservations {now : ℕ} {owner resource : String} {amount : ℕ}
    {requested : Requested} (hnd : (requested.map Prod.fst).Nodup)
    (h : (resource, amount) ∈ requested) :
    (reservations now owner requested).countP (fun g => g.resource = resource) = amount := by
  induction requested with
  | nil => cases h
  | cons e rest ih =>
    obtain ⟨hnot, hrest⟩ := List.nodup_cons.mp hnd
    have hcons : reservations now owner (e :: rest) =
        List.replicate e.2 ⟨now, e.1, owner⟩ ++ reservations now owner rest := rfl
    rw [hcons, List.countP_append, List.countP_replicate]
    rcases List.mem_cons.mp h with rfl | hmem
    · simp [countP_reservations_not_mem hnot]
    · have hne : e.1 ≠ resource := by
        rintro rfl
        exact hnot (List.mem_map.mpr ⟨_, hmem, rfl⟩)
      simp [hne, ih hrest hmem]

theorem map_fst_addRequest (resource : String) (amount : ℕ) (requested : Requested) :
    (addRequest resource amount requested).map Prod.fst =
      if resource ∈ requested.map Prod.fst then requested.map Prod.fst
      else requested.map Prod.fst ++ [resource] := by
  induction requested with
  | nil => simp [addRequest]
  | cons e rest ih =>
    by_cases he : e.1 = resource
    · simp [addRequest, he]
    · simp only [addRequest, he, if_false, List.map_cons, ih, List.mem_cons, Ne.symm he, false_or]
      split_ifs <;> simp

theorem nodup_addRequest {resource : String} {amount : ℕ} {requested : Requested}
    (h : (requested.map Prod.fst).Nodup) :
    ((addRequest resource amount requested).map Prod.fst).Nodup := by
  rw [map_fst_addRequest]
  split_ifs with hmem
  · exact h
  · rw [← List.concat_eq_append]
    exact h.concat hmem

theorem readLimit_nodup {found found' : Bool × Requested} {limit : String × Option ℤ}
    (h : (found.2.map Prod.fst).Nodup) (hr : readLimit found limit = some found') :
    (found'.2.map Prod.fst).Nodup := by
  obtain ⟨resource, amount⟩ := limit
  obtain ⟨anyGpu, _, hr⟩ := Option.bind_eq_some_iff.mp hr
  split_ifs at hr
  · obtain ⟨n, _, rfl⟩ := Option.map_eq_some_iff.mp hr
    by_cases hn : 0 < n
    · simp only [hn, if_true]
      exact nodup_addRequest h
    · simp only [hn, if_false]
      exact h
  · obtain rfl := Option.some.inj hr
    exact h

/-- No resource is requested twice. -/
theorem requests_nodup {pod : Pod} {found : Bool × Requested} (h : requests pod = some found) :
    (found.2.map Prod.fst).Nodup := by
  have hfold (limits : List (String × Option ℤ)) (from' : Bool × Requested)
      (hnd : (from'.2.map Prod.fst).Nodup) (hf : limits.foldlM readLimit from' = some found) :
      (found.2.map Prod.fst).Nodup := by
    induction limits generalizing from' with
    | nil =>
      obtain rfl : from' = found := Option.some.inj hf
      exact hnd
    | cons limit limits ih =>
      rw [List.foldlM_cons] at hf
      obtain ⟨next, hnext, hf⟩ := Option.bind_eq_some_iff.mp hf
      exact ih next (readLimit_nodup hnd hnext) hf
  exact hfold pod.flatten (false, []) List.nodup_nil h

theorem countP_reservations_cons (now : ℕ) (owner resource : String) (requested : Requested)
    (e : String × ℕ) :
    (reservations now owner (e :: requested)).countP (fun g => g.resource = resource) =
      (if e.1 = resource then e.2 else 0) +
        (reservations now owner requested).countP (fun g => g.resource = resource) := by
  rw [reservations, List.flatMap_cons, List.countP_append, List.countP_replicate]
  simp [reservations]

theorem countP_addRequest (now : ℕ) (owner resource r : String) (amount : ℕ)
    (requested : Requested) :
    (reservations now owner (addRequest r amount requested)).countP
        (fun g => g.resource = resource) =
      (reservations now owner requested).countP (fun g => g.resource = resource) +
        if r = resource then amount else 0 := by
  induction requested with
  | nil =>
    rw [addRequest, countP_reservations_cons]
    simp [reservations]
  | cons e rest ih =>
    by_cases he : e.1 = r
    · simp only [addRequest, he, if_true, countP_reservations_cons]
      split_ifs <;> omega
    · simp only [addRequest, he, if_false, countP_reservations_cons, ih]
      omega

theorem countP_readLimit {found found' : Bool × Requested} {limit : String × Option ℤ}
    (hr : readLimit found limit = some found') (now : ℕ) (owner resource : String) :
    (reservations now owner found'.2).countP (fun g => g.resource = resource) =
      (reservations now owner found.2).countP (fun g => g.resource = resource) +
        limitFor resource limit := by
  obtain ⟨r, amount⟩ := limit
  obtain ⟨anyGpu, _, hr⟩ := Option.bind_eq_some_iff.mp hr
  unfold limitFor
  split_ifs at hr with hflavor
  · obtain ⟨n, rfl, rfl⟩ := Option.map_eq_some_iff.mp hr
    by_cases hn : 0 < n
    · simp only [hn, if_true, countP_addRequest]
      by_cases heq : r = resource
      · subst heq
        rw [if_pos rfl, if_pos ⟨rfl, hflavor⟩, Option.getD_some]
      · rw [if_neg heq, if_neg fun hboth => heq hboth.1]
    · simp [hn, Int.toNat_of_nonpos (not_lt.mp hn)]
  · obtain rfl := Option.some.inj hr
    rw [if_neg, Nat.add_zero]
    rintro ⟨rfl, hcontains⟩
    exact hflavor hcontains

/-- What is requested for a pod is reserved as often as its containers ask for it. -/
theorem countP_requests {pod : Pod} {found : Bool × Requested} (h : requests pod = some found)
    (now : ℕ) (owner resource : String) :
    (reservations now owner found.2).countP (fun g => g.resource = resource) =
      asksFor pod resource := by
  have hfold (limits : List (String × Option ℤ)) (from' : Bool × Requested)
      (hf : limits.foldlM readLimit from' = some found) :
      (reservations now owner found.2).countP (fun g => g.resource = resource) =
        (reservations now owner from'.2).countP (fun g => g.resource = resource) +
          (limits.map (limitFor resource)).sum := by
    induction limits generalizing from' with
    | nil =>
      obtain rfl : from' = found := Option.some.inj hf
      simp
    | cons limit limits ih =>
      rw [List.foldlM_cons] at hf
      obtain ⟨next, hnext, hf⟩ := Option.bind_eq_some_iff.mp hf
      rw [ih next hf, countP_readLimit hnext, List.map_cons, List.sum_cons, Nat.add_assoc]
  simpa [reservations, asksFor] using hfold pod.flatten (false, []) h

theorem filter_alive_idem (now : ℕ) (gs : List Grant) :
    (gs.filter (alive now)).filter (alive now) = gs.filter (alive now) := by
  rw [List.filter_filter]
  simp only [Bool.and_self]

theorem checkRequested_cons (now : ℕ) (observed : Free) (gs : List Grant) (resource : String)
    (amount : ℕ) (rest : Requested) :
    checkRequested now observed gs ((resource, amount) :: rest) =
      if amount ≤ (observed.get? resource).getD 0 -
          (gs.filter (alive now)).countP (fun g => g.resource = resource) then
        checkRequested now observed (gs.filter (alive now)) rest
      else (gs.filter (alive now), some ⟨resource,
        if (observed.get? resource).getD 0 < amount then "exhausted" else "reserved",
        unavailable resource⟩) := rfl

/-- The loop drops expired reservations only. -/
theorem checkRequested_live (now : ℕ) (observed : Free) (gs : List Grant) (requested : Requested) :
    (checkRequested now observed gs requested).1.filter (alive now) = gs.filter (alive now) := by
  induction requested generalizing gs with
  | nil => rfl
  | cons e rest ih =>
    obtain ⟨resource, amount⟩ := e
    rw [checkRequested_cons]
    split
    · rw [ih, filter_alive_idem]
    · exact filter_alive_idem now gs

theorem mem_of_mem_checkRequested {now : ℕ} {observed : Free} {gs : List Grant}
    {requested : Requested} {g : Grant} (h : g ∈ (checkRequested now observed gs requested).1) :
    g ∈ gs := by
  induction requested generalizing gs with
  | nil => exact h
  | cons e rest ih =>
    obtain ⟨resource, amount⟩ := e
    rw [checkRequested_cons] at h
    split at h
    · exact List.mem_of_mem_filter (ih h)
    · exact List.mem_of_mem_filter h

/-- The live reservations of a resource. -/
def countLive (now : ℕ) (resource : String) (gs : List Grant) : ℕ :=
  gs.countP fun g => alive now g && g.resource = resource

theorem countLive_eq (now : ℕ) (resource : String) (gs : List Grant) :
    countLive now resource gs = (gs.filter (alive now)).countP fun g => g.resource = resource := by
  rw [countLive, List.countP_filter]
  simp only [Bool.and_comm]

theorem countLive_congr {now : ℕ} {gs gs' : List Grant}
    (h : gs'.filter (alive now) = gs.filter (alive now)) (resource : String) :
    countLive now resource gs' = countLive now resource gs := by
  rw [countLive_eq, countLive_eq, h]

/-- Where the loop does not raise, what is live and what is requested fit together. -/
theorem checkRequested_fits {now : ℕ} {observed : Free} {gs : List Grant} {requested : Requested}
    (h : (checkRequested now observed gs requested).2 = none) {resource : String} {amount : ℕ}
    (hmem : (resource, amount) ∈ requested) :
    amount ≤ (observed.get? resource).getD 0 - countLive now resource gs := by
  induction requested generalizing gs with
  | nil => cases hmem
  | cons e rest ih =>
    obtain ⟨resource', amount'⟩ := e
    rw [checkRequested_cons] at h
    split_ifs at h with hfits
    · rcases List.mem_cons.mp hmem with heq | hmem
      · obtain ⟨rfl, rfl⟩ := Prod.mk.inj heq
        rw [countLive_eq]
        exact hfits
      · have hrest := ih h hmem
        rwa [countLive_congr (filter_alive_idem now gs)] at hrest

/-- Nothing was added and only expired reservations were dropped. -/
def Pruned (now : ℕ) (gs gs' : List Grant) : Prop :=
  gs'.filter (alive now) = gs.filter (alive now) ∧ ∀ g ∈ gs', g ∈ gs

theorem Pruned.refl (now : ℕ) (gs : List Grant) : Pruned now gs gs := ⟨rfl, fun _ hg => hg⟩

theorem pruned_filter (now : ℕ) (gs : List Grant) : Pruned now gs (gs.filter (alive now)) :=
  ⟨filter_alive_idem now gs, fun _ hg => List.mem_of_mem_filter hg⟩

theorem freeGpus_pruned (now : ℕ) (observed : Option Free) (mem : Memory) :
    Pruned now mem.recentGrants (freeGpus now observed mem).mem.recentGrants ∧
    (freeGpus now observed mem).next = none ∧
    ∀ e ∈ (freeGpus now observed mem).events, e.spawner = none := by
  unfold freeGpus
  split
  · exact ⟨Pruned.refl _ _, rfl, by simp [Event.spawner]⟩
  · exact ⟨Pruned.refl _ _, rfl, by simp [Event.spawner]⟩
  · exact ⟨pruned_filter _ _, rfl, by simp [Event.spawner]⟩

/-- What a call of the gate does before its await. -/
theorem start_gate {now : ℕ} {mem : Memory} {sp : Spawner} {pod : Pod} {r : Ran Memory Await Event}
    (h : start now mem (.gate sp pod) = some r) :
    (r.mem = mem ∧ r.next = none ∧ (r.events = [.malformed sp] ∨ r.events = [.passed sp])) ∨
    ∃ requested, r.mem.recentGrants = releaseGrants (spawnerKey sp) mem.recentGrants ∧
      r.next = some (.gate sp requested now) ∧ r.events = [.asked sp] ∧
      requests pod = some (true, requested) := by
  simp only [start] at h
  split at h
  · obtain rfl := Option.some.inj h
    exact .inl ⟨rfl, rfl, .inl rfl⟩
  · obtain rfl := Option.some.inj h
    exact .inl ⟨rfl, rfl, .inr rfl⟩
  · obtain rfl := Option.some.inj h
    exact .inl ⟨rfl, rfl, .inr rfl⟩
  · rename_i requested _ hreq
    obtain rfl := Option.some.inj h
    exact .inr ⟨requested, rfl, rfl, rfl, hreq⟩

theorem start_form {now : ℕ} {mem : Memory} {r : Ran Memory Await Event}
    (h : start now mem .form = some r) :
    Pruned now mem.recentGrants r.mem.recentGrants ∧
    (∀ pc, r.next = some pc → ∃ since, pc = .form since) ∧ ∀ e ∈ r.events, e.spawner = none := by
  simp only [start] at h
  split_ifs at h
  · obtain rfl := Option.some.inj h
    refine ⟨Pruned.refl _ _, fun pc hpc => ⟨now, ?_⟩, by simp⟩
    exact (Option.some.inj hpc).symm
  · obtain rfl := Option.some.inj h
    obtain ⟨hpruned, hnext, hevents⟩ := freeGpus_pruned now mem.cacheFree mem
    exact ⟨hpruned, fun pc hpc => by simp [hnext] at hpc, hevents⟩

theorem resume_form {now : ℕ} {mem : Memory} {since : ℕ} {answer : Answer}
    {r : Ran Memory Await Event} (h : resume now mem (.form since) answer = some r) :
    Pruned now mem.recentGrants r.mem.recentGrants ∧ r.next = none ∧
    ∀ e ∈ r.events, e.spawner = none := by
  cases answer with
  | counts free =>
    obtain rfl := Option.some.inj h
    exact freeGpus_pruned now free (mem.cached free since)
  | raised =>
    obtain rfl := Option.some.inj h
    exact ⟨Pruned.refl _ _, rfl, by simp⟩

/-- What a call of the gate does after its await: it ends, and reserves all it requested
where all of it fits, or nothing. -/
theorem resume_gate {now : ℕ} {mem : Memory} {sp : Spawner} {requested : Requested} {since : ℕ}
    {answer : Answer} {r : Ran Memory Await Event}
    (h : resume now mem (.gate sp requested since) answer = some r) :
    r.next = none ∧
    ((Pruned now mem.recentGrants r.mem.recentGrants ∧ ∃ e, r.events = [e] ∧
        e.spawner = some sp ∧ e.asks = true ∧ ∀ q, e ≠ .admitted sp q) ∨
      ∃ observed gs, answer = .counts (some observed) ∧ Pruned now mem.recentGrants gs ∧
        r.mem.recentGrants = gs ++ reservations now (spawnerKey sp) requested ∧
        r.events = [.admitted sp requested] ∧
        ∀ resource amount, (resource, amount) ∈ requested →
          amount ≤ (observed.get? resource).getD 0 - countLive now resource mem.recentGrants) := by
  cases answer with
  | raised =>
    obtain rfl := Option.some.inj h
    exact ⟨rfl, .inl ⟨Pruned.refl _ _, _, rfl, rfl, rfl, by simp⟩⟩
  | counts free =>
    obtain rfl := Option.some.inj h
    cases free with
    | none => exact ⟨rfl, .inl ⟨Pruned.refl _ _, _, rfl, rfl, rfl, by simp⟩⟩
    | some observed =>
      have hlive := checkRequested_live now observed mem.recentGrants requested
      have hsub (g : Grant) (hg : g ∈ (checkRequested now observed mem.recentGrants requested).1) :
          g ∈ mem.recentGrants := mem_of_mem_checkRequested hg
      have hfits (hok : (checkRequested now observed mem.recentGrants requested).2 = none)
          (resource : String) (amount : ℕ) (hmem : (resource, amount) ∈ requested) :
          amount ≤ (observed.get? resource).getD 0 - countLive now resource mem.recentGrants :=
        checkRequested_fits hok hmem
      simp only [decideSpawn, Memory.cached]
      rcases hcheck : checkRequested now observed mem.recentGrants requested with ⟨gs, _ | refusal⟩
      · rw [hcheck] at hlive hsub hfits
        exact ⟨rfl, .inr ⟨observed, gs, rfl, ⟨hlive, hsub⟩, rfl, rfl, hfits rfl⟩⟩
      · rw [hcheck] at hlive hsub
        exact ⟨rfl, .inl ⟨⟨hlive, hsub⟩, _, rfl, rfl, rfl, by simp⟩⟩

/-- A coroutine awaits once. -/
theorem resume_ends {now : ℕ} {mem : Memory} {pc : Await} {answer : Answer}
    {r : Ran Memory Await Event} (h : resume now mem pc answer = some r) : r.next = none := by
  cases pc with
  | gate sp requested since => exact (resume_gate h).1
  | form since => exact (resume_form h).2.1

theorem countLive_sublist {now : ℕ} {resource : String} {gs gs' : List Grant}
    (h : gs'.Sublist gs) : countLive now resource gs' ≤ countLive now resource gs :=
  h.countP_le

theorem countLive_later {now later : ℕ} (hle : now ≤ later) (resource : String) (gs : List Grant) :
    countLive later resource gs ≤ countLive now resource gs := by
  apply List.countP_mono_left
  intro g _ hg
  simp only [Bool.and_eq_true] at hg ⊢
  exact ⟨alive_of_later hle hg.1, hg.2⟩

/-- No more is reserved than there is. -/
def Within (F : Free) (now : ℕ) (mem : Memory) : Prop :=
  ∀ resource, countLive now resource mem.recentGrants ≤ (F.get? resource).getD 0

/-- A call of the gate awaits with each resource requested once, and is answered `F`. -/
def Awaits (F : Free) (_ : ℕ) (_ : Memory) : Await → Option Answer → Prop
  | .gate _ requested _, reply => (requested.map Prod.fst).Nodup ∧
      ∀ free, reply = some (.counts free) → free = some F
  | .form _, _ => True

theorem Within.pruned {F : Free} {now : ℕ} {mem mem' : Memory} (h : Within F now mem)
    (hp : Pruned now mem.recentGrants mem'.recentGrants) : Within F now mem' := by
  intro resource
  rw [countLive_congr hp.1]
  exact h resource

theorem Within.released {F : Free} {now : ℕ} {mem mem' : Memory} {owner : String}
    (h : Within F now mem) (hr : mem'.recentGrants = releaseGrants owner mem.recentGrants) :
    Within F now mem' := by
  intro resource
  have hsub : mem'.recentGrants.Sublist mem.recentGrants := hr ▸ List.filter_sublist
  exact (countLive_sublist hsub).trans (h resource)

theorem Within.admitted {F : Free} {now : ℕ} {mem mem' : Memory} {gs : List Grant} {key : String}
    {requested : Requested} (h : Within F now mem) (hnd : (requested.map Prod.fst).Nodup)
    (hp : Pruned now mem.recentGrants gs)
    (hgs : mem'.recentGrants = gs ++ reservations now key requested)
    (hfits : ∀ resource amount, (resource, amount) ∈ requested →
      amount ≤ (F.get? resource).getD 0 - countLive now resource mem.recentGrants) :
    Within F now mem' := by
  intro resource
  have hbefore := h resource
  have hall : (reservations now key requested).filter (alive now) =
      reservations now key requested :=
    List.filter_eq_self.mpr fun g hg => alive_of_mem_reservations hg
  rw [hgs, countLive_eq, List.filter_append, List.countP_append, hall, hp.1, ← countLive_eq]
  by_cases hmem : resource ∈ requested.map Prod.fst
  · obtain ⟨e, he, rfl⟩ := List.mem_map.mp hmem
    have hcount : (reservations now key requested).countP (fun g => g.resource = e.1) = e.2 :=
      countP_reservations hnd he
    have hfit := hfits e.1 e.2 he
    omega
  · have hzero : (reservations now key requested).countP (fun g => g.resource = resource) = 0 :=
      countP_reservations_not_mem hmem
    omega

theorem within_step (F : Free) (s : GateState) (a : GateAction) (s' : GateState)
    (h : Holds (Within F) (Awaits F) s) (hc : Answers F s a) (hs : program.step s a = some s') :
    Holds (Within F) (Awaits F) s' := by
  have hsame (now now' : ℕ) (mem mem' : Memory) (pc : Await) (reply : Option Answer)
      (hl : Awaits F now mem pc reply) : Awaits F now' mem' pc reply := by
    cases pc <;> exact hl
  apply Holds.step (P := program) (C := Answers F) _ _ _ _ s a s' h hc hs
  · intro s i r h _ hr
    have hothers (t : ℕ) (pc : Await) (x : Option Answer) (_ : s.at t = some ⟨pc, x⟩)
        (hl : Awaits F s.world s.mem pc x) : Awaits F s.world r.mem pc x := hsame _ _ _ _ pc x hl
    cases i with
    | gate sp pod =>
      rcases start_gate hr with ⟨hmem, hnext, _⟩ | ⟨requested, hmem, hnext, _, hreq⟩
      · exact ⟨hmem ▸ h.shared, fun pc hpc => by simp [hnext] at hpc, hothers⟩
      · refine ⟨h.shared.released hmem, fun pc hpc => ?_, hothers⟩
        obtain rfl := Option.some.inj (hnext.symm.trans hpc)
        exact ⟨requests_nodup hreq, fun _ hfree => by cases hfree⟩
    | form =>
      obtain ⟨hpruned, hnext, _⟩ := start_form hr
      refine ⟨h.shared.pruned hpruned, fun pc hpc => ?_, hothers⟩
      obtain ⟨since, rfl⟩ := hnext pc hpc
      trivial
  · intro s t answer pc w x h hc ht hv
    obtain ⟨rfl, rfl⟩ := Prod.mk.inj (Option.some.inj hv)
    refine ⟨h.shared, ?_, fun j pc x _ _ hl => hsame _ _ _ _ pc x hl⟩
    have hl := h.each t _ ht
    cases pc with
    | gate sp requested since =>
      refine ⟨hl.1, fun free hfree => ?_⟩
      rcases hc with hc | hc
      · rw [hc] at hfree
        cases hfree
      · rw [hc] at hfree
        injection hfree with hfree
        injection hfree with hfree
        exact hfree.symm
    | form since => trivial
  · intro s t pc answer r h _ ht hr
    have hl := h.each t _ ht
    cases pc with
    | gate sp requested since =>
      obtain ⟨hnext, hcase⟩ := resume_gate hr
      refine ⟨?_, fun pc hpc => by simp [hnext] at hpc, fun j pc x _ _ hl => hsame _ _ _ _ pc x hl⟩
      rcases hcase with ⟨hpruned, _⟩ | ⟨observed, gs, hans, hpruned, hgs, _, hfits⟩
      · exact h.shared.pruned hpruned
      · obtain rfl := Option.some.inj (hl.2 _ (congrArg some hans))
        exact h.shared.admitted hl.1 hpruned hgs hfits
    | form since =>
      obtain ⟨hpruned, hnext, _⟩ := resume_form hr
      exact ⟨h.shared.pruned hpruned, fun pc hpc => by simp [hnext] at hpc,
        fun j pc x _ _ hl => hsame _ _ _ _ pc x hl⟩
  · intro s e w g h _ he
    refine ⟨?_, fun t pc x _ hl => hsame _ _ _ _ pc x hl⟩
    cases e with
    | tick d =>
      obtain ⟨rfl, rfl⟩ := Prod.mk.inj (Option.some.inj he)
      exact fun resource => (countLive_later (Nat.le_add_right _ d) resource _).trans
        (h.shared resource)
    | stop sp =>
      obtain ⟨rfl, rfl⟩ := Prod.mk.inj (Option.some.inj he)
      exact h.shared.released rfl

end PurdueAF.HubGpuGate

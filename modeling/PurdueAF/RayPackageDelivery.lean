import PurdueAF.RayPackages

/-!
# Which code a Ray job finds

Each client's packages are where its calls had their RayJob, and a POST that is given that
RayJob finds all of them there.
-/
namespace PurdueAF.RayPackages
open Ray Machine

/-- The RayJob a POST has been given. -/
def Pc.posting : Pc → Option String
  | .starting .post name | .patching name | .relaying .post name | .reading name
  | .creating name => some name
  | _ => none

def Pc.posts : Pc → Bool
  | .ready .post | .checking => true
  | pc => pc.posting.isSome

def Pc.name : Pc → Option String
  | .starting _ name | .patching name | .relaying _ name | .storing _ name | .reading name
  | .creating name => some name
  | _ => none

/-- The site at which a call can be there. -/
def Pc.site : Pc → Option Site
  | .checking | .starting _ _ | .patching _ | .relaying _ _ => some .purdue
  | .storing _ _ | .reading _ | .creating _ => some .nrp
  | _ => none

/-- On NRP, code is kept while its RayJob waits or is a POST's. -/
def Keeps (site : Site) (s : State) (cl : Client) (name : String) : Prop :=
  site = .nrp → (∃ w, s.slot = some w ∧ w.name = name) ∨ cl.pc.posting = some name

/-- What holds of a client wherever it is. -/
structure Fine (site : Site) (s : State) (cl : Client) : Prop where
  drawn : ∀ e ∈ cl.got, e.2 ∈ s.drawn
  name : ∀ n, cl.pc.name = some n → n ∈ s.drawn
  here : ∀ x, cl.pc.site = some x → site = x
  unposted : ∀ n, cl.pc ≠ .storing .post n
  plain : ∀ p ∈ cl.rest, '/' ∉ p.toList
  told : ∀ p ∈ cl.env.packages, p ∈ cl.rest ∨ p ∈ cl.got.map Prod.fst
  spent : cl.pc.posts = true → cl.rest = []
  kept : ∀ e ∈ cl.got, Keeps site s cl e.2 → e.2 ∈ s.gone ∨ s.present e.2 e.1 = true
  same : ∀ n, cl.pc.posting = some n → ∀ e ∈ cl.got, e.2 = n

structure Sound (site : Site) (s : State) : Prop where
  slot : ∀ w, s.slot = some w → w.name ∈ s.drawn
  nrp : site = .nrp → s.gone = []
  each : ∀ cl ∈ s.clients, Fine site s cl

/-- Nothing is lost from one state to the next, and a name that waits now waited before or
is new. -/
structure Grows (site : Site) (s s' : State) : Prop where
  drawn : ∀ n ∈ s.drawn, n ∈ s'.drawn
  gone : s'.gone = s.gone
  present : ∀ n p, s.present n p = true → s'.present n p = true
  slot : ∀ w', s'.slot = some w' → w'.name ∈ s'.drawn ∧
    (site = .nrp → (∃ w, s.slot = some w ∧ w.name = w'.name) ∨ w'.name ∉ s.drawn)

theorem Grows.keeps {site : Site} {s s' : State} (h : Grows site s s') {cl : Client} {n : String}
    (hn : n ∈ s.drawn) (hk : Keeps site s' cl n) : Keeps site s cl n := by
  intro hsite
  rcases hk hsite with ⟨w', hw', rfl⟩ | hpost
  · rcases (h.slot w' hw').2 hsite with hold | hnew
    · exact .inl hold
    · exact absurd hn hnew
  · exact .inr hpost

/-- What others do leaves a client fine. -/
theorem Fine.frame {site : Site} {s s' : State} {cl : Client} (h : Fine site s cl)
    (hg : Grows site s s') : Fine site s' cl where
  drawn e he := hg.drawn _ (h.drawn e he)
  name n hn := hg.drawn _ (h.name n hn)
  here := h.here
  unposted := h.unposted
  plain := h.plain
  told := h.told
  spent := h.spent
  kept e he hk := by
    rcases h.kept e he (hg.keeps (h.drawn e he) hk) with hgone | hpresent
    · exact .inl (hg.gone ▸ hgone)
    · exact .inr (hg.present _ _ hpresent)
  same := h.same

/-- A client that only moved on is fine where that is right. -/
theorem Fine.goto {site : Site} {s s' : State} {cl : Client} {pc : Pc} (h : Fine site s cl)
    (hg : Grows site s s') (hname : ∀ n, pc.name = some n → n ∈ s'.drawn)
    (hsite : ∀ x, pc.site = some x → site = x) (hunposted : ∀ n, pc ≠ .storing .post n)
    (hspent : pc.posts = true → cl.rest = [])
    (hsame : ∀ n, pc.posting = some n → ∀ e ∈ cl.got, e.2 = n)
    (hkeeps : ∀ e ∈ cl.got, pc.posting = some e.2 → Keeps site s cl e.2) :
    Fine site s' { cl with pc := pc } where
  drawn e he := hg.drawn _ (h.drawn e he)
  name := hname
  here := hsite
  unposted := hunposted
  plain := h.plain
  told := h.told
  spent := hspent
  kept e he hk := by
    have hbefore : Keeps site s cl e.2 := by
      intro hnrp
      rcases hk hnrp with ⟨w', hw', hn⟩ | hpost
      · rcases (hg.slot w' hw').2 hnrp with ⟨w, hw, hn'⟩ | hnew
        · exact .inl ⟨w, hw, hn'.trans hn⟩
        · exact absurd (hn ▸ h.drawn e he) hnew
      · exact hkeeps e he hpost hnrp
    rcases h.kept e he hbefore with hgone | hpresent
    · exact .inl (hg.gone ▸ hgone)
    · exact .inr (hg.present _ _ hpresent)
  same := hsame

/-- A client moves on to a call that is no POST of its own. -/
theorem Fine.goes {site : Site} {s s' : State} {cl : Client} {pc : Pc} (h : Fine site s cl)
    (hg : Grows site s s') (hname : ∀ n, pc.name = some n → n ∈ s'.drawn)
    (hsite : ∀ x, pc.site = some x → site = x) (hunposted : ∀ n, pc ≠ .storing .post n)
    (hspent : pc.posts = true → cl.rest = []) (hpost : pc.posting = none) :
    Fine site s' { cl with pc := pc } := by
  apply h.goto hg hname hsite hunposted hspent
  · intro n hn
    simp [hpost] at hn
  · intro e _ hn
    simp [hpost] at hn

theorem name_of_posting {pc : Pc} {name : String} (h : pc.posting = some name) :
    pc.name = some name := by
  unfold Pc.posting at h
  split at h <;> first | exact h | cases h

theorem posts_of_posting {pc : Pc} {name : String} (h : pc.posting = some name) :
    pc.posts = true := by
  unfold Pc.posts
  split
  · rfl
  · rfl
  · simp [h]

/-- A POST goes on with the RayJob it was given. -/
theorem Fine.hands {site : Site} {s s' : State} {cl : Client} {pc : Pc} {n : String}
    (h : Fine site s cl) (hg : Grows site s s') (hbefore : cl.pc.posting = some n)
    (hafter : pc.posting = some n) (hsite : ∀ x, pc.site = some x → site = x) :
    Fine site s' { cl with pc := pc } := by
  apply h.goto hg
  · intro m hm
    rw [name_of_posting hafter] at hm
    obtain rfl := Option.some.inj hm
    exact hg.drawn _ (h.name _ (name_of_posting hbefore))
  · exact hsite
  · rintro m rfl
    cases hafter
  · exact fun _ => h.spent (posts_of_posting hbefore)
  · intro m hm
    exact h.same m (hbefore.trans (hafter.symm.trans hm))
  · intro e _ hm _
    exact .inr (hbefore.trans (hafter.symm.trans hm))

theorem Sound.moved {site : Site} {s s' : State} (h : Sound site s) (hg : Grows site s s') {c : ℕ}
    {cl' : Client} (hclients : s'.clients = s.clients.set c cl') (hcl : Fine site s' cl') :
    Sound site s' where
  slot w hw := (hg.slot w hw).1
  nrp hsite := hg.gone.trans (h.nrp hsite)
  each cl hmem := by
    rw [hclients] at hmem
    rcases List.mem_or_eq_of_mem_set hmem with hmem | rfl
    · exact (h.each cl hmem).frame hg
    · exact hcl

theorem Grows.of_slot {site : Site} {s s' : State} (hdrawn : s'.drawn = s.drawn)
    (hgone : s'.gone = s.gone) (hstored : s'.stored = s.stored)
    (hslot : ∀ w', s'.slot = some w' → w'.name ∈ s.drawn ∧
      (site = .nrp → ∃ w, s.slot = some w ∧ w.name = w'.name)) : Grows site s s' where
  drawn n hn := hdrawn ▸ hn
  gone := hgone
  present n p hp := by rwa [State.present, hstored]
  slot w' hw' := ⟨hdrawn ▸ (hslot w' hw').1, fun hsite => .inl ((hslot w' hw').2 hsite)⟩

theorem Sound.grows_same {site : Site} {s s' : State} (h : Sound site s)
    (hdrawn : s'.drawn = s.drawn) (hgone : s'.gone = s.gone) (hstored : s'.stored = s.stored)
    (hslot : s'.slot = s.slot ∨ s'.slot = none) : Grows site s s' := by
  apply Grows.of_slot hdrawn hgone hstored
  intro w' hw'
  rcases hslot with hsame | hnone
  · rw [hsame] at hw'
    exact ⟨h.slot w' hw', fun _ => ⟨w', hw', rfl⟩⟩
  · rw [hnone] at hw'
    cases hw'

theorem fitting_eq_some {site : Site} {s : State} {shape : Shape} {w : Slot}
    (h : s.fitting site shape = some w) : s.slot = some w := (Option.filter_eq_some_iff.mp h).1

theorem draw_eq_some {s s' : State} {key : String} (h : s.draw key = some s') :
    key ∉ s.drawn ∧ s' = { s with drawn := key :: s.drawn } := by
  unfold State.draw at h
  split_ifs at h with hkey
  exact ⟨hkey, (Option.some.inj h).symm⟩

/-- The RayJob that a careful POST is given is the one its client's packages are with. -/
theorem same_of_careful {site : Site} {s : State} {cl : Client}
    (hc : cl.got ≠ [] →
      ((s.fitting site cl.shape).any fun w => cl.got.all fun e => e.2 = w.name) = true) :
    (∀ w, s.fitting site cl.shape = some w → ∀ e ∈ cl.got, e.2 = w.name) ∧
    (s.fitting site cl.shape = none → cl.got = []) := by
  constructor
  · intro w hw e he
    have hany := hc (List.ne_nil_of_mem he)
    rw [hw, Option.any_some] at hany
    simpa using List.all_eq_true.mp hany e he
  · intro hnone
    by_contra hne
    have hany := hc hne
    simp [hnone] at hany

theorem sound_take {s s' : State} {c : ℕ} {cl : Client} {call : Call} {key : String}
    (h : Sound .purdue s) (hcl : Fine .purdue s cl) (hspent : call = .post → cl.rest = [])
    (hc : call = .post → cl.got ≠ [] →
      ((s.fitting .purdue cl.shape).any fun w => cl.got.all fun e => e.2 = w.name) = true)
    (hs : s.take .purdue c cl call key = some s') : Sound .purdue s' := by
  unfold State.take at hs
  have hpurdue : Site.purdue ≠ Site.nrp := by decide
  cases hfit : s.fitting .purdue cl.shape with
  | some w =>
    rw [hfit] at hs
    have hw := h.slot w (fitting_eq_some hfit)
    simp only at hs
    split_ifs at hs with hpost
    · obtain rfl := Option.some.inj hs
      have hg : Grows .purdue s ({ s with slot := none, lock := some c }.goto c cl (.patching w.name)) :=
        h.grows_same rfl rfl rfl (.inr rfl)
      apply h.moved hg rfl
      apply hcl.goto hg
      · rintro n ⟨⟩
        exact hw
      · rintro x ⟨⟩
        rfl
      · simp
      · exact fun _ => hspent hpost
      · rintro n ⟨⟩
        exact (same_of_careful (hc hpost)).1 w hfit
      · exact fun _ _ _ hnrp => absurd hnrp hpurdue
    · obtain rfl := Option.some.inj hs
      have hg : Grows .purdue s (s.unlock.goto c cl (.relaying call w.name)) :=
        h.grows_same rfl rfl rfl (.inl rfl)
      apply h.moved hg rfl
      apply hcl.goes hg
      · rintro n ⟨⟩
        exact hw
      · rintro x ⟨⟩
        rfl
      · simp
      · intro hposts
        cases call <;> first | exact absurd rfl hpost | cases hposts
      · cases call <;> first | exact absurd rfl hpost | rfl
  | none =>
    rw [hfit] at hs
    obtain ⟨m, hm, rfl⟩ := Option.map_eq_some_iff.mp hs
    obtain ⟨_, rfl⟩ := draw_eq_some hm
    have hg : Grows .purdue s ({ s with drawn := key :: s.drawn, slot := none, lock := some c }.goto c cl
        (.starting call key)) :=
      ⟨fun n hn => List.mem_cons_of_mem _ hn, rfl, fun _ _ hp => hp, fun w' hw' => by cases hw'⟩
    apply h.moved hg rfl
    apply hcl.goto hg
    · rintro n ⟨⟩
      exact List.mem_cons_self
    · rintro x ⟨⟩
      rfl
    · simp
    · intro hposts
      cases call with
      | post => exact hspent rfl
      | get => cases hposts
      | put => cases hposts
    · intro n hn e he
      cases call with
      | post =>
        rw [(same_of_careful (hc rfl)).2 hfit] at he
        cases he
      | get => cases hn
      | put => cases hn
    · exact fun _ _ _ hnrp => absurd hnrp hpurdue

theorem sound_takeNrp {s s' : State} {c : ℕ} {cl : Client} {call : Call} {key : String}
    (h : Sound .nrp s) (hcl : Fine .nrp s cl) (hspent : call = .post → cl.rest = [])
    (hc : call = .post → cl.got ≠ [] →
      ((s.fitting .nrp cl.shape).any fun w => cl.got.all fun e => e.2 = w.name) = true)
    (hs : s.takeNrp .nrp c cl call key = some s') : Sound .nrp s' := by
  unfold State.takeNrp at hs
  cases hfit : s.fitting .nrp cl.shape with
  | some w =>
    rw [hfit] at hs
    obtain rfl := Option.some.inj hs
    have hslot := fitting_eq_some hfit
    have hw := h.slot w hslot
    split_ifs with hpost
    · have hg : Grows .nrp s ({ s with lock := some c }.goto c cl (.reading w.name)) :=
        h.grows_same rfl rfl rfl (.inl rfl)
      apply h.moved hg rfl
      apply hcl.goto hg
      · rintro n ⟨⟩
        exact hw
      · rintro x ⟨⟩
        rfl
      · simp
      · exact fun _ => hspent hpost
      · rintro n ⟨⟩
        exact (same_of_careful (hc hpost)).1 w hfit
      · intro e he _ _
        exact .inl ⟨w, hslot, ((same_of_careful (hc hpost)).1 w hfit e he).symm⟩
    · have hg : Grows .nrp s ({ s with slot := some ⟨w.name, cl.shape, s.now⟩, lock := some c }.goto c cl
          (.storing call w.name)) := by
        refine Grows.of_slot rfl rfl rfl fun w' hw' => ?_
        obtain rfl := Option.some.inj hw'
        exact ⟨hw, fun _ => ⟨w, hslot, rfl⟩⟩
      apply h.moved hg rfl
      apply hcl.goes hg
      · rintro n ⟨⟩
        exact hw
      · rintro x ⟨⟩
        rfl
      · rintro n ⟨⟩
        exact hpost rfl
      · simp [Pc.posts, Pc.posting]
      · rfl
  | none =>
    rw [hfit] at hs
    obtain ⟨⟨m, name⟩, hm, rfl⟩ := Option.map_eq_some_iff.mp hs
    obtain ⟨m', hm', heq⟩ := Option.map_eq_some_iff.mp hm
    obtain ⟨rfl, rfl⟩ := Prod.mk.inj heq
    obtain ⟨hkey, rfl⟩ := draw_eq_some hm'
    split_ifs with hpost
    · have hg : Grows .nrp s ({ s with drawn := key :: s.drawn, lock := some c }.goto c cl (.reading key)) :=
        ⟨fun n hn => List.mem_cons_of_mem _ hn, rfl, fun _ _ hp => hp, fun w' hw' =>
          ⟨List.mem_cons_of_mem _ (h.slot w' hw'), fun _ => .inl ⟨w', hw', rfl⟩⟩⟩
      have hnone := (same_of_careful (hc hpost)).2 hfit
      apply h.moved hg rfl
      apply hcl.goto hg
      · rintro n ⟨⟩
        exact List.mem_cons_self
      · rintro x ⟨⟩
        rfl
      · simp
      · exact fun _ => hspent hpost
      · intro n _ e he
        rw [hnone] at he
        cases he
      · intro e he
        rw [hnone] at he
        cases he
    · have hg : Grows .nrp s (State.goto
          { s with drawn := key :: s.drawn, slot := some ⟨key, cl.shape, s.now⟩, lock := some c }
          c cl (.storing call key)) := by
        refine ⟨fun n hn => List.mem_cons_of_mem _ hn, rfl, fun _ _ hp => hp, fun w' hw' => ?_⟩
        obtain rfl := Option.some.inj hw'
        exact ⟨List.mem_cons_self, fun _ => .inr hkey⟩
      apply h.moved hg rfl
      apply hcl.goes hg
      · rintro n ⟨⟩
        exact List.mem_cons_self
      · rintro x ⟨⟩
        rfl
      · rintro n ⟨⟩
        exact hpost rfl
      · simp [Pc.posts, Pc.posting]
      · rfl

/-- The client got its package where its call had its RayJob. -/
theorem Fine.gotIt {site : Site} {s s' : State} {cl : Client} {package name : String}
    {rest : List String} (h : Fine site s cl) (hg : Grows site s s')
    (hrest : cl.rest = package :: rest) (hname : name ∈ s.drawn)
    (hpresent : s'.present name package = true) :
    Fine site s' { cl with
      rest := cl.rest.tail
      pc := .ready (if cl.rest.tail = [] then .post else .get)
      got := (package, name) :: cl.got } where
  drawn e he := by
    rcases List.mem_cons.mp he with rfl | he
    · exact hg.drawn _ hname
    · exact hg.drawn _ (h.drawn e he)
  name n hn := by cases hn
  here x hx := by cases hx
  unposted n := by simp
  plain p hp := h.plain p (List.mem_of_mem_tail hp)
  told p hp := by
    rcases h.told p hp with hin | hin
    · rw [hrest] at hin ⊢
      rcases List.mem_cons.mp hin with rfl | hin
      · exact .inr (by simp)
      · exact .inl hin
    · exact .inr (List.mem_cons_of_mem _ hin)
  spent hposts := by
    by_contra hne
    have hne' : cl.rest.tail ≠ [] := hne
    simp [Pc.posts, Pc.posting, hne'] at hposts
  kept e he hk := by
    rcases List.mem_cons.mp he with rfl | he
    · exact .inr hpresent
    · have hbefore : Keeps site s cl e.2 := by
        intro hnrp
        rcases hk hnrp with ⟨w', hw', hn⟩ | hp
        · rcases (hg.slot w' hw').2 hnrp with ⟨w, hw, hn'⟩ | hnew
          · exact .inl ⟨w, hw, hn'.trans hn⟩
          · exact absurd (hn ▸ h.drawn e he) hnew
        · cases hp
      rcases h.kept e he hbefore with hgone | hold
      · exact .inl (hg.gone ▸ hgone)
      · exact .inr (hg.present _ _ hold)
  same n hn := by cases hn

theorem sound_answer {site : Site} {s s' : State} {c : ℕ} {cl : Client} {call : Call} {name : String}
    (h : Sound site s) (hcl : Fine site s cl) (hname : name ∈ s.drawn)
    (hpost : call ≠ .post → cl.pc.posting = none)
    (hs : s.answer c cl call name = some s') : Sound site s' := by
  unfold State.answer at hs
  split at hs
  · rename_i package rest hrest
    have hplain := hcl.plain package (by rw [hrest]; exact List.mem_cons_self)
    rw [lastPart_packagePath hplain] at hs
    split_ifs at hs with hpresent
    · obtain rfl := Option.some.inj hs
      have hg : Grows site s (s.gotIt c cl package name) := h.grows_same rfl rfl rfl (.inl rfl)
      exact h.moved hg rfl (hcl.gotIt hg hrest hname hpresent)
    · obtain rfl := Option.some.inj hs
      have hg : Grows site s (s.goto c cl (.ready .put)) := h.grows_same rfl rfl rfl (.inl rfl)
      apply h.moved hg rfl
      apply hcl.goes hg <;> simp [Pc.name, Pc.site, Pc.posts, Pc.posting]
  · rename_i package rest hrest
    have hplain := hcl.plain package (by rw [hrest]; exact List.mem_cons_self)
    rw [lastPart_packagePath hplain] at hs
    obtain rfl := Option.some.inj hs
    have hg : Grows site s { s.gotIt c cl package name with
        stored := ⟨name, package, s.now⟩ :: s.stored } := by
      refine ⟨fun n hn => hn, rfl, fun n p hp => ?_, fun w' hw' => ⟨h.slot w' hw', fun _ => .inl ⟨w', hw', rfl⟩⟩⟩
      unfold State.present at hp ⊢
      rw [List.any_cons, hp, Bool.or_true]
    apply h.moved hg rfl
    exact hcl.gotIt hg hrest hname (by simp [State.present])
  · obtain rfl := Option.some.inj hs
    have hg : Grows site s (s.goto c cl (.accepted name)) := h.grows_same rfl rfl rfl (.inl rfl)
    apply h.moved hg rfl
    apply hcl.goes hg <;> simp [Pc.name, Pc.site, Pc.posts, Pc.posting]
  · cases hs

theorem Sound.unlock {site : Site} {s : State} (h : Sound site s) : Sound site s.unlock :=
  ⟨h.slot, h.nrp, fun cl hcl => (h.each cl hcl).frame (h.grows_same rfl rfl rfl (.inl rfl))⟩

theorem sound_enter {site : Site} {s s' : State} {c : ℕ} {cl : Client} {call : Call} {key : String}
    (h : Sound site s) (hcl : Fine site s cl) (hpc : cl.pc = .ready call)
    (hc : cl.pc.settles site = true → cl.got ≠ [] →
      ((s.fitting site cl.shape).any fun w => cl.got.all fun e => e.2 = w.name) = true)
    (hs : s.enter site c cl call key = some s') : Sound site s' := by
  have hspent : call = .post → cl.rest = [] := by
    rintro rfl
    exact hcl.spent (by rw [hpc]; rfl)
  unfold State.enter at hs
  split_ifs at hs
  split at hs
  · obtain rfl := Option.some.inj hs
    have hg : Grows .purdue s ({ s with lock := some c }.goto c cl .checking) :=
      h.grows_same rfl rfl rfl (.inl rfl)
    apply h.moved hg rfl
    apply hcl.goes hg
    · simp [Pc.name]
    · rintro x ⟨⟩
      rfl
    · simp
    · exact fun _ => hspent rfl
    · rfl
  · rename_i hnot
    have hne : call ≠ .post := hnot
    exact sound_take h hcl hspent (fun heq => absurd heq hne) hs
  · apply sound_takeNrp h hcl hspent _ hs
    rintro rfl
    apply hc
    rw [hpc]
    rfl

theorem sound_go {site : Site} {s s' : State} {c : ℕ} {cl : Client} {key : String}
    (h : Sound site s) (hcl : Fine site s cl)
    (hc : cl.pc.settles site = true → cl.got ≠ [] →
      ((s.fitting site cl.shape).any fun w => cl.got.all fun e => e.2 = w.name) = true)
    (hs : s.go site c cl key = some s') : Sound site s' := by
  unfold State.go at hs
  split at hs
  · rename_i call hpc
    exact sound_enter h hcl hpc hc hs
  · rename_i hpc
    obtain rfl : site = .purdue := hcl.here _ (by rw [hpc]; rfl)
    exact sound_take h hcl (fun _ => hcl.spent (by rw [hpc]; rfl))
      (fun _ => hc (by rw [hpc]; rfl)) hs
  · rename_i name hpc
    obtain rfl : site = .purdue := hcl.here _ (by rw [hpc]; rfl)
    obtain rfl := Option.some.inj hs
    have hg : Grows .purdue s (s.goto c cl (.patching name)) := h.grows_same rfl rfl rfl (.inl rfl)
    exact h.moved hg rfl (hcl.hands hg (n := name) (by rw [hpc]; rfl) rfl (by simp [Pc.site]))
  · rename_i call name hnot hpc
    obtain rfl : site = .purdue := hcl.here _ (by rw [hpc]; rfl)
    obtain rfl := Option.some.inj hs
    have hname := hcl.name name (by rw [hpc]; rfl)
    have hne : call ≠ .post := hnot
    have hg : Grows .purdue s ({ s with slot := some ⟨name, cl.shape, s.now⟩, lock := none }.goto c cl
        (.relaying call name)) := by
      refine Grows.of_slot rfl rfl rfl fun w' hw' => ?_
      obtain rfl := Option.some.inj hw'
      exact ⟨hname, fun hsite => by cases hsite⟩
    apply h.moved hg rfl
    apply hcl.goes hg
    · rintro n ⟨⟩
      exact hname
    · rintro x ⟨⟩
      rfl
    · simp
    · intro hposts
      cases call <;> first | exact absurd rfl hne | cases hposts
    · cases call <;> first | exact absurd rfl hne | rfl
  · rename_i name hpc
    obtain rfl : site = .purdue := hcl.here _ (by rw [hpc]; rfl)
    obtain rfl := Option.some.inj hs
    have hg : Grows .purdue s (s.unlock.goto c cl (.relaying .post name)) :=
      h.grows_same rfl rfl rfl (.inl rfl)
    exact h.moved hg rfl (hcl.hands hg (n := name) (by rw [hpc]; rfl) rfl (by simp [Pc.site]))
  · rename_i call name hpc
    split_ifs at hs
    apply sound_answer h hcl (hcl.name _ (by rw [hpc]; rfl)) _ hs
    intro hne
    rw [hpc]
    cases call <;> first | exact absurd rfl hne | rfl
  · rename_i call name hpc
    have hcl' : Fine site s.unlock cl := hcl.frame (h.grows_same rfl rfl rfl (.inl rfl))
    apply sound_answer h.unlock hcl' (hcl.name _ (by rw [hpc]; rfl)) _ hs
    intro _
    rw [hpc]
    rfl
  · rename_i name hpc
    obtain rfl : site = .nrp := hcl.here _ (by rw [hpc]; rfl)
    obtain rfl := Option.some.inj hs
    have hg : Grows .nrp s ({ s with slot := none }.goto c cl (.creating name)) :=
      h.grows_same rfl rfl rfl (.inr rfl)
    exact h.moved hg rfl (hcl.hands hg (n := name) (by rw [hpc]; rfl) rfl (by simp [Pc.site]))
  · obtain rfl := Option.some.inj hs
    rename_i name hpc
    have hg : Grows site s (s.unlock.goto c cl (.accepted name)) := h.grows_same rfl rfl rfl (.inl rfl)
    apply h.moved hg rfl
    apply hcl.goes hg <;> simp [Pc.name, Pc.site, Pc.posts, Pc.posting]
  · cases hs
  · cases hs

theorem fine_begin {site : Site} {s : State} {shape : Shape} {env : RuntimeEnv}
    (h : ∀ p ∈ env.packages, '/' ∉ p.toList) : Fine site s (begin shape env) where
  drawn e he := by cases he
  name n hn := by cases hn
  here x hx := by cases hx
  unposted n := by simp [begin]
  plain := h
  told p hp := .inl hp
  spent hposts := by
    by_contra hne
    have hne' : env.packages ≠ [] := hne
    simp [begin, Pc.posts, Pc.posting, hne'] at hposts
  kept e he := by cases he
  same n hn := by cases hn

/-- Code that waits or is a POST's is not swept. -/
theorem sound_sweep {s : State} {name : String} (h : Sound .nrp s)
    (hslot : (s.slot.all fun w => w.name ≠ name) = true)
    (hc : ∀ cl ∈ s.clients, cl.pc ≠ .reading name ∧ cl.pc ≠ .creating name) :
    Sound .nrp { s with stored := s.stored.filter fun e => e.job ≠ name } where
  slot := h.slot
  nrp := h.nrp
  each cl hmem := by
    have hcl := h.each cl hmem
    refine ⟨hcl.drawn, hcl.name, hcl.here, hcl.unposted, hcl.plain, hcl.told, hcl.spent, ?_, hcl.same⟩
    intro e he hk
    have hne : e.2 ≠ name := by
      rcases hk rfl with ⟨w, hw, hn⟩ | hpost
      · rintro rfl
        have hw' : s.slot = some w := hw
        simp [hw', hn] at hslot
      · rintro rfl
        obtain ⟨hread, hcreate⟩ := hc cl hmem
        cases hpc : cl.pc with
        | reading n =>
          rw [hpc] at hpost hread
          exact hread (by rw [Option.some.inj hpost])
        | creating n =>
          rw [hpc] at hpost hcreate
          exact hcreate (by rw [Option.some.inj hpost])
        | starting call n => cases hcl.here .purdue (by rw [hpc]; rfl)
        | patching n => cases hcl.here .purdue (by rw [hpc]; rfl)
        | relaying call n => cases hcl.here .purdue (by rw [hpc]; rfl)
        | _ => rw [hpc] at hpost; cases hpost
    rcases hcl.kept e he hk with hgone | hpresent
    · exact .inl hgone
    · right
      obtain ⟨x, hx, heq⟩ := List.any_eq_true.mp hpresent
      refine List.any_eq_true.mpr ⟨x, List.mem_filter.mpr ⟨hx, ?_⟩, heq⟩
      simp only [Bool.and_eq_true, decide_eq_true_eq] at heq ⊢
      rw [heq.1]
      exact hne

theorem sound_step {site : Site} {s s' : State} {a : Action} (h : Sound site s)
    (hc : Careful site s a) (hs : step site s a = some s') : Sound site s' := by
  cases a with
  | submit shape env =>
    simp only [step] at hs
    split_ifs at hs with hplain
    obtain rfl := Option.some.inj hs
    have hg : Grows site s { s with clients := s.clients ++ [begin shape env] } :=
      h.grows_same rfl rfl rfl (.inl rfl)
    refine ⟨h.slot, h.nrp, fun cl hmem => ?_⟩
    rcases List.mem_append.mp hmem with hmem | hmem
    · exact (h.each cl hmem).frame hg
    · obtain rfl := List.mem_singleton.mp hmem
      exact fine_begin fun p hp => by simpa using List.all_eq_true.mp hplain p hp
  | go c ok key =>
    simp only [step] at hs
    split at hs
    · rename_i cl hcl
      have hmem : cl ∈ s.clients := List.mem_of_getElem? hcl
      split_ifs at hs with hok hend
      · exact sound_go h (h.each cl hmem) (fun hset hne => hc cl hcl hok hset hne) hs
      · obtain rfl := Option.some.inj hs
        have hg : Grows site s (s.quit c cl) := h.grows_same rfl rfl rfl (.inl rfl)
        apply h.moved hg rfl
        apply (h.each cl hmem).goes hg <;> simp [Pc.name, Pc.site, Pc.posts, Pc.posting]
    · cases hs
  | tick seconds =>
    obtain rfl := Option.some.inj hs
    have hg : Grows site s { s with now := s.now + seconds } := h.grows_same rfl rfl rfl (.inl rfl)
    exact ⟨h.slot, h.nrp, fun cl hmem => (h.each cl hmem).frame hg⟩
  | gone name =>
    simp only [step] at hs
    split_ifs at hs with hsite
    obtain rfl := Option.some.inj hs
    refine ⟨h.slot, fun hnrp => by simp [hsite] at hnrp, fun cl hmem => ?_⟩
    have hcl := h.each cl hmem
    refine ⟨hcl.drawn, hcl.name, hcl.here, hcl.unposted, hcl.plain, hcl.told, hcl.spent, ?_, hcl.same⟩
    intro e he hk
    exact (hcl.kept e he hk).imp (List.mem_cons_of_mem _) id
  | sweep name =>
    simp only [step] at hs
    split_ifs at hs with hguard
    obtain ⟨rfl, hslot, _⟩ := hguard
    obtain rfl := Option.some.inj hs
    exact sound_sweep h hslot hc

theorem sound_initial (site : Site) : Sound site initial where
  slot w hw := by cases hw
  nrp _ := rfl
  each cl hmem := by cases hmem

/-- Where a POST has its RayJob and that is there, so are all its packages. -/
theorem Fine.present {site : Site} {s : State} {cl : Client} {name : String}
    (h : Fine site s cl) (hpost : cl.pc.posting = some name) (hgone : name ∉ s.gone) :
    ∀ p ∈ cl.env.packages, s.present name p = true := by
  intro p hp
  have hgot : p ∈ cl.got.map Prod.fst := by
    rcases h.told p hp with hin | hin
    · rw [h.spent (posts_of_posting hpost)] at hin
      cases hin
    · exact hin
  obtain ⟨e, he, rfl⟩ := List.mem_map.mp hgot
  have hname := h.same name hpost e he
  rcases h.kept e he (fun _ => .inr (hname ▸ hpost)) with hin | hin
  · exact absurd (hname ▸ hin) hgone
  · exact hname ▸ hin

/-- What the client becomes, and from where its POST is accepted. -/
def Leads (s : State) (c : ℕ) (cl : Client) (s' : State) : Prop :=
  ∃ cl', s'.clients = s.clients.set c cl' ∧ cl'.env = cl.env ∧
    ∀ n, cl'.pc = .accepted n → s'.stored = s.stored ∧
      ((cl.pc = .relaying .post n ∧ n ∉ s.gone) ∨ cl.pc = .creating n ∨ cl.pc = .storing .post n)

theorem leads_goto {s s' : State} {c : ℕ} {cl : Client} {pc : Pc}
    (hclients : s'.clients = s.clients.set c { cl with pc := pc }) (hpc : ∀ n, pc ≠ .accepted n) :
    Leads s c cl s' :=
  ⟨_, hclients, rfl, fun n hn => absurd hn (hpc n)⟩

theorem leads_answer {s m s' : State} {c : ℕ} {cl : Client} {call : Call} {name : String}
    (hclients : m.clients = s.clients) (hstored : m.stored = s.stored)
    (hpc : (cl.pc = .relaying call name ∧ name ∉ s.gone) ∨ cl.pc = .storing call name)
    (hs : m.answer c cl call name = some s') : Leads s c cl s' := by
  unfold State.answer at hs
  split at hs
  · split_ifs at hs
    · obtain rfl := Option.some.inj hs
      exact ⟨_, congrArg (List.set · c _) hclients, rfl, fun n hn => by cases hn⟩
    · obtain rfl := Option.some.inj hs
      exact leads_goto (congrArg (List.set · c _) hclients) (by simp)
  · obtain rfl := Option.some.inj hs
    exact ⟨_, congrArg (List.set · c _) hclients, rfl, fun n hn => by cases hn⟩
  · obtain rfl := Option.some.inj hs
    refine ⟨_, congrArg (List.set · c _) hclients, rfl, fun n hn => ⟨hstored, ?_⟩⟩
    obtain rfl : name = n := by simpa using hn
    rcases hpc with hpc | hpc
    · exact .inl hpc
    · exact .inr (.inr hpc)
  · cases hs

theorem leads_take {site : Site} {s s' : State} {c : ℕ} {cl : Client} {call : Call} {key : String}
    (hs : s.take site c cl call key = some s') : Leads s c cl s' := by
  unfold State.take at hs
  split at hs
  · split_ifs at hs
    all_goals
      obtain rfl := Option.some.inj hs
      exact leads_goto rfl (by simp)
  · obtain ⟨m, hm, rfl⟩ := Option.map_eq_some_iff.mp hs
    obtain ⟨_, rfl⟩ := draw_eq_some hm
    exact leads_goto rfl (by simp)

theorem leads_takeNrp {site : Site} {s s' : State} {c : ℕ} {cl : Client} {call : Call} {key : String}
    (hs : s.takeNrp site c cl call key = some s') : Leads s c cl s' := by
  unfold State.takeNrp at hs
  obtain ⟨⟨m, name⟩, hm, rfl⟩ := Option.map_eq_some_iff.mp hs
  have hclients : m.clients = s.clients := by
    split at hm
    · rw [← (Prod.mk.inj (Option.some.inj hm)).1]
    · obtain ⟨m', hm', heq⟩ := Option.map_eq_some_iff.mp hm
      obtain ⟨_, rfl⟩ := draw_eq_some hm'
      rw [← (Prod.mk.inj heq).1]
  simp only
  split_ifs
  all_goals exact leads_goto (congrArg (List.set · c _) hclients) (by simp)

theorem leads_go {site : Site} {s s' : State} {c : ℕ} {cl : Client} {key : String}
    (hs : s.go site c cl key = some s') : Leads s c cl s' := by
  unfold State.go at hs
  split at hs
  · unfold State.enter at hs
    split_ifs at hs
    split at hs
    · obtain rfl := Option.some.inj hs
      exact leads_goto rfl (by simp)
    · exact leads_take hs
    · exact leads_takeNrp hs
  · exact leads_take hs
  · obtain rfl := Option.some.inj hs
    exact leads_goto rfl (by simp)
  · obtain rfl := Option.some.inj hs
    exact leads_goto rfl (by simp)
  · obtain rfl := Option.some.inj hs
    exact leads_goto rfl (by simp)
  · rename_i hpc
    split_ifs at hs with hgone
    exact leads_answer rfl rfl (.inl ⟨hpc, hgone⟩) hs
  · rename_i hpc
    exact leads_answer (m := s.unlock) rfl rfl (.inr hpc) hs
  · obtain rfl := Option.some.inj hs
    exact leads_goto rfl (by simp)
  · rename_i name hpc
    obtain rfl := Option.some.inj hs
    refine ⟨_, rfl, rfl, fun n hn => ⟨rfl, .inr (.inl ?_)⟩⟩
    obtain rfl : name = n := by simpa using hn
    exact hpc
  · cases hs
  · cases hs

/-- A POST is accepted for the RayJob it was given. -/
theorem posting_of_accepts {site : Site} {s s' : State} {a : Action} {c : ℕ} {name : String}
    {env : RuntimeEnv} (h : Sound site s) (hs : step site s a = some s')
    (hacc : Accepts s s' c name env) :
    ∃ cl ∈ s.clients, cl.env = env ∧ cl.pc.posting = some name ∧ name ∉ s.gone ∧
      s'.stored = s.stored := by
  obtain ⟨cl, cl', hcl, hcl', hnot, hacc, henv⟩ := hacc
  have hmem : cl ∈ s.clients := List.mem_of_getElem? hcl
  -- a step that does not move client `c` accepts nothing of it
  have hsame (hget : s'.clients[c]? = s.clients[c]?) : False := by
    obtain rfl : cl = cl' := Option.some.inj (hcl.symm.trans (hget.symm.trans hcl'))
    exact hnot hacc
  cases a with
  | submit shape env' =>
    simp only [step] at hs
    split_ifs at hs
    obtain rfl := Option.some.inj hs
    have hlt : c < s.clients.length := by
      by_contra hge
      simp [List.getElem?_eq_none (Nat.not_lt.mp hge)] at hcl
    exact (hsame (List.getElem?_append_left hlt)).elim
  | tick seconds =>
    obtain rfl := Option.some.inj hs
    exact (hsame rfl).elim
  | gone n =>
    simp only [step] at hs
    split_ifs at hs
    obtain rfl := Option.some.inj hs
    exact (hsame rfl).elim
  | sweep n =>
    simp only [step] at hs
    split_ifs at hs
    obtain rfl := Option.some.inj hs
    exact (hsame rfl).elim
  | go c' ok key =>
    simp only [step] at hs
    split at hs
    · rename_i x hx
      have hset : Leads s c' x s' := by
        split_ifs at hs
        · exact leads_go hs
        · obtain rfl := Option.some.inj hs
          exact leads_goto rfl (by simp)
      obtain ⟨y, hy, hyenv, hyacc⟩ := hset
      by_cases hcc : c' = c
      · subst hcc
        obtain rfl : x = cl := Option.some.inj (hx.symm.trans hcl)
        have hyc : y = cl' := by
          have hlt : c' < s.clients.length := by
            by_contra hge
            simp [List.getElem?_eq_none (Nat.not_lt.mp hge)] at hcl
          rw [hy, List.getElem?_set_self hlt] at hcl'
          exact Option.some.inj hcl'
        subst hyc
        have hx := h.each x hmem
        obtain ⟨hstored, hfrom⟩ := hyacc name hacc
        rcases hfrom with ⟨hpc, hgone⟩ | hpc | hpc
        · exact ⟨x, hmem, hyenv.symm.trans henv, by rw [hpc]; rfl, hgone, hstored⟩
        · have hnrp : site = .nrp := hx.here _ (by rw [hpc]; rfl)
          refine ⟨x, hmem, hyenv.symm.trans henv, by rw [hpc]; rfl, ?_, hstored⟩
          rw [h.nrp hnrp]
          exact List.not_mem_nil
        · exact absurd hpc (hx.unposted name)
      · exact (hsame (by rw [hy, List.getElem?_set_ne hcc])).elim
    · cases hs

theorem moved_package (bucket name package : String) :
    moved bucket name (packageScheme ++ package) =
      "s3://" ++ bucket ++ "/" ++ codePrefix name ++ "/" ++ package := by
  unfold moved
  rw [packageOf_append packageScheme package rfl]

theorem reached_of_run {site : Site} {acts : List Action} {s s' : State} {a : Action} {c : ℕ}
    {name : String} {env : RuntimeEnv} (hr : run (step site) initial acts = some s)
    (hc : Along (step site) (Careful site) initial acts) (hs : step site s a = some s')
    (hacc : Accepts s s' c name env) : ∀ p ∈ env.packages, Reached site s' env name p := by
  have hsound : Sound site s := run_invariant (sound_initial site)
    (fun m b m' h hcare hm => sound_step h hcare hm) hc hr
  obtain ⟨cl, hmem, rfl, hpost, hgone, hstored⟩ := posting_of_accepts hsound hs hacc
  intro p hp
  have hthere : s'.present name p = true := by
    unfold State.present
    rw [hstored]
    exact (hsound.each cl hmem).present hpost hgone p hp
  cases site with
  | purdue => exact hthere
  | nrp => exact fun bucket => ⟨moved_package bucket name p, moved_mem_toS3 bucket name hp, hthere⟩

def oneWorker : Shape := ⟨"", "1", "", "4", "16", "1", "1", "purdue"⟩

def codeEnv : RuntimeEnv := ⟨some "gcs://_ray_pkg_0a.zip", none⟩

/-- A client goes on, its awaits all well, and draws `key` if it needs a name. -/
def goes (c : ℕ) (keys : List String) : List Action := keys.map fun key => .go c true key

/-- While client 0 uploads its code and submits, client 1 uploads its own to the same RayJob. -/
def sharedPurdue : List Action :=
  [.submit oneWorker codeEnv, .submit oneWorker ⟨some "gcs://_ray_pkg_0b.zip", none⟩] ++
    goes 0 ["job0", "", ""] ++ goes 1 ["", ""] ++ goes 0 ["", ""] ++ goes 1 ["", ""] ++
    goes 0 ["", "", ""]

theorem reached_of_run_shared :
    ∃ s s', run (step .purdue) initial sharedPurdue = some s ∧
      step .purdue s (.go 0 true "") = some s' ∧ Accepts s s' 0 "job0" codeEnv ∧
      ∀ p ∈ codeEnv.packages, Reached .purdue s' codeEnv "job0" p := by
  have hrun : (run (step .purdue) initial sharedPurdue).any (fun s =>
      (step .purdue s (.go 0 true "")).any fun s' =>
        (s.clients[0]?).any (fun cl => cl.pc ≠ .accepted "job0") &&
        (s'.clients[0]?).any fun cl => cl.pc = .accepted "job0" ∧ cl.env = codeEnv) = true := by
    decide +kernel
  obtain ⟨s, hs, hrun⟩ := Option.any_eq_true _ _ |>.mp hrun
  obtain ⟨s', hs', hrun⟩ := Option.any_eq_true _ _ |>.mp hrun
  obtain ⟨hbefore, hafter⟩ := Bool.and_eq_true_iff.mp hrun
  obtain ⟨cl, hcl, hpc⟩ := Option.any_eq_true _ _ |>.mp hbefore
  obtain ⟨cl', hcl', hpc'⟩ := Option.any_eq_true _ _ |>.mp hafter
  obtain ⟨hacc, henv⟩ := of_decide_eq_true hpc'
  have haccepts : Accepts s s' 0 "job0" codeEnv :=
    ⟨cl, cl', hcl, hcl', of_decide_eq_true hpc, hacc, henv⟩
  exact ⟨s, s', hs, hs', haccepts, reached_of_run hs (by decide +kernel) hs' haccepts⟩

/-- Client 0 uploads its code; client 1 finds it there and submits before client 0 does. -/
def rivalPurdue : List Action :=
  [.submit oneWorker codeEnv, .submit oneWorker codeEnv] ++ goes 0 ["job0", "", "", "", ""] ++
    goes 1 ["", "", "", "", "", ""] ++ goes 0 ["", "job1", "", ""]

def rivalNrp : List Action :=
  [.submit oneWorker codeEnv, .submit oneWorker codeEnv] ++ goes 0 ["job0", "", "", ""] ++
    goes 1 ["", "", "", "", ""] ++ goes 0 ["job1", ""]

/-- The POST of client 0 is accepted for a RayJob that has none of its code. -/
def Stranded (site : Site) (acts : List Action) : Bool :=
  (run (step site) initial acts).any fun s =>
    (step site s (.go 0 true "")).any fun s' =>
      (s.clients[0]?).any (fun cl => cl.pc ≠ .accepted "job1") &&
      (s'.clients[0]?).any (fun cl => cl.pc = .accepted "job1" ∧ cl.env = codeEnv) &&
      codeEnv.packages.contains "_ray_pkg_0a.zip" && !s'.present "job1" "_ray_pkg_0a.zip"

theorem not_reached_of_stranded {site : Site} {acts : List Action}
    (h : Stranded site acts = true) :
    ¬∀ acts s a s' c name env, run (step site) initial acts = some s → step site s a = some s' →
      Accepts s s' c name env → ∀ p ∈ env.packages, Reached site s' env name p := by
  intro hall
  obtain ⟨s, hs, h⟩ := Option.any_eq_true _ _ |>.mp h
  obtain ⟨s', hs', h⟩ := Option.any_eq_true _ _ |>.mp h
  obtain ⟨h, habsent⟩ := Bool.and_eq_true_iff.mp h
  obtain ⟨h, hpackage⟩ := Bool.and_eq_true_iff.mp h
  obtain ⟨hbefore, hafter⟩ := Bool.and_eq_true_iff.mp h
  obtain ⟨cl, hcl, hpc⟩ := Option.any_eq_true _ _ |>.mp hbefore
  obtain ⟨cl', hcl', hpc'⟩ := Option.any_eq_true _ _ |>.mp hafter
  obtain ⟨hacc, henv⟩ := of_decide_eq_true hpc'
  have hreached := hall acts s _ s' 0 "job1" codeEnv hs hs'
    ⟨cl, cl', hcl, hcl', of_decide_eq_true hpc, hacc, henv⟩ "_ray_pkg_0a.zip" (by simpa using hpackage)
  cases site with
  | purdue => simp [show s'.present "job1" "_ray_pkg_0a.zip" = true from hreached] at habsent
  | nrp => simp [(hreached "af").2.2] at habsent

theorem not_reached_rivals :
    (¬∀ acts s a s' c name env, run (step .purdue) initial acts = some s →
      step .purdue s a = some s' → Accepts s s' c name env →
      ∀ p ∈ env.packages, Reached .purdue s' env name p) ∧
    ¬∀ acts s a s' c name env, run (step .nrp) initial acts = some s →
      step .nrp s a = some s' → Accepts s s' c name env →
      ∀ p ∈ env.packages, Reached .nrp s' env name p := by
  have hpurdue : Stranded .purdue rivalPurdue = true := by decide +kernel
  have hnrp : Stranded .nrp rivalNrp = true := by decide +kernel
  exact ⟨not_reached_of_stranded hpurdue, not_reached_of_stranded hnrp⟩

end PurdueAF.RayPackages

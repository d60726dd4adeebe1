import PurdueAF.MattermostTokens

/-!
# Tokens over the runs of the agent

A refresh token that Mattermost exchanged, with the answer received, is never sent again: the
lock keeps two refreshes apart, and what a refresh or a login brought is held in one place until
it is stored. Tokens are the service account's, and a login's state is taken up once.
-/
namespace PurdueAF.MattermostTokens
open Coroutine

variable {username : String} {s s' : St} {w w' : World}

theorem fate_append (pair : Pair) {r : ℕ} (h : r < w.pairs.length) :
    World.fate { w with pairs := w.pairs ++ [pair] } r = w.fate r := by
  simp [World.fate, List.getElem?_append_left h]

theorem fate_settle_ne {refresh r : ℕ} (owner : String) (fate : Fate) (h : r < w.pairs.length)
    (hne : r ≠ refresh) : (w.settle refresh owner fate).fate r = w.fate r := by
  have hlt : r < (w.pairs.set refresh ⟨owner, fate⟩).length := by simpa using h
  simp [World.fate, World.settle, List.getElem?_append_left hlt,
    List.getElem?_set_ne (Ne.symm hne)]

theorem fate_settle_self {refresh : ℕ} (owner : String) (fate : Fate)
    (h : refresh < w.pairs.length) : (w.settle refresh owner fate).fate refresh = some fate := by
  have hlt : refresh < (w.pairs.set refresh ⟨owner, fate⟩).length := by simpa using h
  simp [World.fate, World.settle, List.getElem?_append_left hlt, List.getElem?_set_self h]

theorem fate_new (owner : String) :
    World.fate { w with pairs := w.pairs ++ [⟨owner, .live⟩] } w.pairs.length = some .live := by
  simp [World.fate]

theorem fate_settle_new (refresh : ℕ) (owner : String) (fate : Fate) :
    (w.settle refresh owner fate).fate w.pairs.length = some .live := by
  simp [World.fate, World.settle]

theorem lt_of_fate {r : ℕ} {fate : Fate} (h : w.fate r = some fate) : r < w.pairs.length := by
  obtain ⟨pair, hpair, -⟩ := Option.map_eq_some_iff.mp h
  exact (List.getElem?_eq_some_iff.mp hpair).1

/-- Mattermost's answer to one coroutine leaves every token but the one refreshed as it was. -/
theorem fate_served {pc : Pc} {a : Answer} (h : Served w pc w' a) {r : ℕ} (hr : r < w.pairs.length)
    (hne : ∀ refresh rejected, pc = .refreshing refresh rejected → r ≠ refresh) :
    w'.fate r = w.fate r := by
  cases h with
  | same _ _ _ hname => rfl
  | login code owner expiresIn => exact fate_append _ hr
  | refreshed refresh rejected owner expiresIn hlive =>
    exact fate_settle_ne owner .spent hr (hne refresh rejected rfl)
  | lost refresh rejected owner hlive =>
    exact fate_settle_ne owner .lost hr (hne refresh rejected rfl)

/-- The answer that a coroutine has and that is not stored yet. -/
def held : Suspended Pc Answer → Option ℕ
  | ⟨.me grant, _⟩ => some grant.refresh
  | ⟨.lock (.store grant), _⟩ => some grant.refresh
  | ⟨.refreshing _ _, some (.granted grant)⟩ => some grant.refresh
  | ⟨.exchanging _, some (.granted grant)⟩ => some grant.refresh
  | _ => none

def Pc.locks : Pc → Unit → Prop
  | .refreshing _ _, _ => True
  | _, _ => False

/-- A refresh holds the lock. -/
abbrev Locked (s : St) : Prop := Exclusive (fun g (_ : Unit) => g.locked) Pc.locks s

theorem locked_step {a : Act} (h : Locked s) (hs : (program username).step s a = some s') :
    Locked s' := by
  refine Exclusive.step (fun w g i r hr => ?_) (fun w g pc a r hr => ?_)
    (fun w g e w' g' he k hk => ?_) h hs
  · obtain ⟨hlocked, -, hnext, -⟩ := started hr
    refine .of_eq (funext fun _ => hlocked) fun k pc hpc hk => ?_
    rcases hnext pc hpc with rfl | ⟨code, rfl⟩ <;> exact hk
  · cases resumed hr with
    | refused rejected a hfree hnone => exact .of_eq rfl fun k pc hpc hk => by cases hpc
    | refresh rejected a tokens hfree hsome =>
      exact ⟨fun _ _ _ => rfl, fun _ _ _ _ _ => ⟨hfree, rfl⟩, fun _ _ _ _ hk _ => absurd hk id⟩
    | fresh rejected a tokens hfree hsome =>
      refine .of_eq rfl fun k pc hpc hk => ?_
      obtain rfl := Option.some.inj hpc
      exact hk
    | login grant a hfree => exact .of_eq rfl fun k pc hpc hk => by cases hpc
    | refreshed refresh rejected grant =>
      refine ⟨fun k hk => absurd trivial hk, fun k pc hpc hk => ?_, fun k pc hpc hk => ?_⟩
      · obtain rfl := Option.some.inj hpc
        exact absurd hk id
      · obtain rfl := Option.some.inj hpc
        exact absurd hk id
    | notRefreshed refresh rejected a ha =>
      exact ⟨fun k hk => absurd trivial hk, fun k pc hpc => (by cases hpc),
        fun k pc hpc => (by cases hpc)⟩
    | rejected access =>
      refine .of_eq rfl fun k pc hpc hk => ?_
      obtain rfl := Option.some.inj hpc
      exact hk
    | exchanged code grant =>
      refine .of_eq rfl fun k pc hpc hk => ?_
      obtain rfl := Option.some.inj hpc
      exact hk
    | known grant =>
      refine .of_eq rfl fun k pc hpc hk => ?_
      obtain rfl := Option.some.inj hpc
      exact hk
    | ended pc a hpc => exact .of_eq rfl fun k pc hpc hk => by cases hpc
  · rw [(moved_clock he).2.1]
    exact hk

/-- What holds between two steps. A refresh in flight is of the token the agent has, unless it
forgot it; what a coroutine holds unstored is good, and nobody else has it. -/
structure Sound (s : St) : Prop where
  locked : Locked s
  file : s.mem.file = s.mem.tokens
  known : ∀ k, s.mem.tokens = some k → k.refresh < s.world.pairs.length
  live : ∀ t th r, s.at t = some th → held th = some r → s.world.fate r = some .live
  once : ∀ t t' th th' r, s.at t = some th → s.at t' = some th' → held th = some r →
    held th' = some r → t = t'
  apart : ∀ t th r k, s.at t = some th → held th = some r → s.mem.tokens = some k → k.refresh ≠ r
  inFlight : ∀ t th r rejected, s.at t = some th → th.pc = .refreshing r rejected →
    r < s.world.pairs.length ∧ (∀ k, s.mem.tokens = some k → k.refresh = r) ∧
      ((∀ grant, th.reply ≠ some (.granted grant)) → s.world.fate r ≠ some .spent) ∧
      ∀ t' th' r', s.at t' = some th' → held th' = some r' → r' ≠ r
  idle : s.mem.locked = false → ∀ k, s.mem.tokens = some k → s.world.fate k.refresh ≠ some .spent

/-- A coroutine that takes up nothing new, and stores nothing. -/
theorem Sound.quiet (h : Sound s) (hlocked : Locked s') {t : ℕ}
    {x : Option (Suspended Pc Answer)} (hat : ∀ j, s'.at j = if t = j then x else s.at j)
    (hworld : s'.world.pairs = s.world.pairs) (hfile : s'.mem.file = s'.mem.tokens)
    (htokens : ∀ k, s'.mem.tokens = some k → s.mem.tokens = some k)
    (hheld : ∀ th r, x = some th → held th = some r →
      ∃ old, s.at t = some old ∧ held old = some r)
    (hx : ∀ th r rejected, x = some th → th.pc = .refreshing r rejected →
      s.at t = some ⟨.refreshing r rejected, none⟩)
    (hidle : s'.mem.locked = false → s.mem.locked = false ∨
      ∃ r rejected a, s.at t = some ⟨.refreshing r rejected, some a⟩ ∧ ∀ grant, a ≠ .granted grant) :
    Sound s' := by
  have hfate (r : ℕ) : s'.world.fate r = s.world.fate r := by simp [World.fate, hworld]
  have hold : ∀ j th r, s'.at j = some th → held th = some r →
      ∃ old, s.at j = some old ∧ held old = some r := by
    intro j th r hj hr
    rw [hat] at hj
    split_ifs at hj with htj
    · exact htj ▸ hheld th r hj hr
    · exact ⟨th, hj, hr⟩
  refine ⟨hlocked, hfile, fun k hk => ?_, fun j th r hj hr => ?_, fun j j' th th' r hj hj' hr hr' => ?_,
    fun j th r k hj hr hk => ?_, fun j th r rejected hj hpc => ?_, fun hfree k hk => ?_⟩
  · rw [hworld]
    exact h.known k (htokens k hk)
  · obtain ⟨old, hj, hr⟩ := hold j th r hj hr
    rw [hfate]
    exact h.live j old r hj hr
  · obtain ⟨old, hj, hr⟩ := hold j th r hj hr
    obtain ⟨old', hj', hr'⟩ := hold j' th' r hj' hr'
    exact h.once j j' old old' r hj hj' hr hr'
  · obtain ⟨old, hj, hr⟩ := hold j th r hj hr
    exact h.apart j old r k hj hr (htokens k hk)
  · rw [hat] at hj
    split_ifs at hj with htj
    · obtain ⟨hlt, htok, hspent, hothers⟩ := h.inFlight t _ r rejected (hx th r rejected hj hpc) rfl
      refine ⟨hworld ▸ hlt, fun k hk => htok k (htokens k hk), fun _ => ?_,
        fun t' th' r' ht' hr' => ?_⟩
      · rw [hfate]
        exact hspent fun _ h => by cases h
      · obtain ⟨old, ht', hr'⟩ := hold t' th' r' ht' hr'
        exact hothers t' old r' ht' hr'
    · obtain ⟨hlt, htok, hspent, hothers⟩ := h.inFlight j th r rejected hj hpc
      refine ⟨hworld ▸ hlt, fun k hk => htok k (htokens k hk), fun hg => ?_,
        fun t' th' r' ht' hr' => ?_⟩
      · rw [hfate]
        exact hspent hg
      · obtain ⟨old, ht', hr'⟩ := hold t' th' r' ht' hr'
        exact hothers t' old r' ht' hr'
  · rw [hfate]
    rcases hidle hfree with hfree | ⟨r, rejected, a, ht, ha⟩
    · exact h.idle hfree k (htokens k hk)
    · obtain ⟨-, htok, hspent, -⟩ := h.inFlight t _ r rejected ht rfl
      rw [htok k (htokens k hk)]
      exact hspent fun grant hg => ha grant (Option.some.inj hg)

/-- A coroutine stores the answer it holds. -/
theorem Sound.stores (h : Sound s) (hlocked : Locked s') {t : ℕ} {old : Suspended Pc Answer}
    {x : Option (Suspended Pc Answer)} {grant : Grant} {expiresAt : ℚ} (ht : s.at t = some old)
    (hgrant : held old = some grant.refresh)
    (hat : ∀ j, s'.at j = if t = j then x else s.at j) (hworld : s'.world = s.world)
    (hfile : s'.mem.file = s'.mem.tokens)
    (htokens : s'.mem.tokens = some ⟨grant.access, grant.refresh, expiresAt⟩)
    (hx : ∀ th, x = some th → held th = none ∧ ∀ r rejected, th.pc ≠ .refreshing r rejected)
    (halone : ∀ j th, j ≠ t → s.at j = some th → ¬th.pc.locks ()) : Sound s' := by
  have hlive : s.world.fate grant.refresh = some .live := h.live t old _ ht hgrant
  have hstored : ∀ k, s'.mem.tokens = some k → k.refresh = grant.refresh := by
    intro k hk
    rw [htokens] at hk
    rw [← Option.some.inj hk]
  have hold : ∀ j th r, s'.at j = some th → held th = some r → j ≠ t ∧ s.at j = some th := by
    intro j th r hj hr
    rw [hat] at hj
    split_ifs at hj with htj
    · rw [(hx th hj).1] at hr
      cases hr
    · exact ⟨Ne.symm htj, hj⟩
  refine ⟨hlocked, hfile, fun k hk => ?_, fun j th r hj hr => ?_, fun j j' th th' r hj hj' hr hr' => ?_,
    fun j th r k hj hr hk => ?_, fun j th r rejected hj hpc => ?_, fun hfree k hk => ?_⟩
  · rw [hworld, hstored k hk]
    exact lt_of_fate hlive
  · rw [hworld]
    exact h.live j th r (hold j th r hj hr).2 hr
  · exact h.once j j' th th' r (hold j th r hj hr).2 (hold j' th' r hj' hr').2 hr hr'
  · obtain ⟨hne, hj⟩ := hold j th r hj hr
    rw [hstored k hk]
    intro heq
    exact hne (h.once j t th old r hj ht hr (heq ▸ hgrant))
  · rw [hat] at hj
    split_ifs at hj with htj
    · exact absurd hpc ((hx th hj).2 r rejected)
    · exact absurd (by rw [hpc]; trivial) (halone j th (Ne.symm htj) hj)
  · rw [hworld, hstored k hk, hlive]
    simp

theorem sound_call {i : Call} {r : Step} (h : Sound s) (hr : start s.world s.mem i = some r)
    (hlocked : Locked ⟨s.world, r.mem, s.threads ++ [suspend r.next]⟩) :
    Sound ⟨s.world, r.mem, s.threads ++ [suspend r.next]⟩ := by
  obtain ⟨hlock, htokens, hnext, -⟩ := started hr
  have hfresh : ∀ th, suspend r.next = some th → held th = none ∧
      ∀ r rejected, th.pc ≠ .refreshing r rejected := by
    intro th hth
    obtain ⟨hpc, hreply⟩ := suspend_eq_some hth
    obtain ⟨pc, reply⟩ := th
    obtain rfl : reply = none := hreply
    rcases hnext pc hpc with rfl | ⟨code, rfl⟩ <;> exact ⟨rfl, fun _ _ h => by cases h⟩
  refine h.quiet hlocked (at_append s _ _ _) rfl ?_ ?_ (fun th r hth hheld => ?_)
    (fun th _ _ hth hpc => absurd hpc ((hfresh th hth).2 _ _)) fun hfree => .inl (hlock ▸ hfree)
  · rcases htokens with ⟨htok, hfile⟩ | ⟨htok, hfile⟩
    · exact hfile.trans (h.file.trans htok.symm)
    · exact hfile.trans htok.symm
  · intro k hk
    rcases htokens with ⟨htok, -⟩ | ⟨htok, -⟩
    · exact htok ▸ hk
    · change r.mem.tokens = some k at hk
      rw [htok] at hk
      cases hk
  · rw [(hfresh th hth).1] at hheld
    cases hheld

theorem sound_resume {t : ℕ} {pc : Pc} {a : Answer} {r : Step} (h : Sound s)
    (ht : s.at t = some ⟨pc, some a⟩) (hr : resume username s.world s.mem pc a = some r)
    (hlocked : Locked ⟨s.world, r.mem, s.threads.set t (suspend r.next)⟩) :
    Sound ⟨s.world, r.mem, s.threads.set t (suspend r.next)⟩ := by
  have hat : ∀ j, State.at ⟨s.world, r.mem, s.threads.set t (suspend r.next)⟩ j =
      if t = j then suspend r.next else s.at j :=
    fun j => at_set s _ _ t j _ (by simp [ht])
  have hunlocked (hfree : s.mem.locked = false) (j : ℕ) (th : Suspended Pc Answer)
      (hj : s.at j = some th) : ¬th.pc.locks () := fun hk => by
    have := h.locked.flagged j th () hj hk
    simp [hfree] at this
  cases resumed hr with
  | refused rejected a hfree hnone =>
    exact h.quiet hlocked hat rfl h.file (fun _ hk => hk) (fun _ _ hth => by cases hth)
      (fun _ _ _ hth _ => by cases hth) fun hfree => .inl hfree
  | refresh rejected a tokens hfree hsome =>
    refine ⟨hlocked, h.file, h.known, fun j th r hj hr => ?_, fun j j' th th' r hj hj' hr hr' => ?_,
      fun j th r k hj hr hk => ?_, fun j th r rejected' hj hpc => ?_, fun hfree => by cases hfree⟩
    · rw [hat] at hj
      split_ifs at hj with htj
      · obtain rfl := Option.some.inj hj
        cases hr
      · exact h.live j th r hj hr
    · rw [hat] at hj hj'
      split_ifs at hj hj' with htj htj' htj'
      · exact htj.symm.trans htj'
      · obtain rfl := Option.some.inj hj
        cases hr
      · obtain rfl := Option.some.inj hj'
        cases hr'
      · exact h.once j j' th th' r hj hj' hr hr'
    · rw [hat] at hj
      split_ifs at hj with htj
      · obtain rfl := Option.some.inj hj
        cases hr
      · exact h.apart j th r k hj hr hk
    · rw [hat] at hj
      split_ifs at hj with htj
      · obtain rfl := Option.some.inj hj
        obtain ⟨rfl, rfl⟩ := Pc.refreshing.inj hpc
        refine ⟨h.known tokens hsome, fun k hk => ?_, fun _ => h.idle hfree tokens hsome,
          fun j' th' r' hj' hr' => ?_⟩
        · exact congrArg Tokens.refresh (Option.some.inj (hk.symm.trans hsome))
        · rw [hat] at hj'
          split_ifs at hj' with htj'
          · obtain rfl := Option.some.inj hj'
            cases hr'
          · exact fun heq => h.apart j' th' r' tokens hj' hr' hsome heq.symm
      · exact absurd (by rw [hpc]; trivial) (hunlocked hfree j th hj)
  | fresh rejected a tokens hfree hsome =>
    refine h.quiet hlocked hat rfl h.file (fun _ hk => hk) (fun th r hth hr => ?_)
      (fun th r rej hth hpc => ?_) fun hfree => .inl hfree
    · obtain rfl := Option.some.inj hth
      cases hr
    · obtain rfl := Option.some.inj hth
      cases hpc
  | login grant a hfree =>
    exact h.stores hlocked ht rfl hat rfl rfl rfl (fun th hth => by cases hth)
      fun j th _ hj => hunlocked hfree j th hj
  | refreshed refresh rejected grant =>
    refine h.stores hlocked ht rfl hat rfl rfl rfl (fun th hth => ?_) fun j th hjt hj hk => ?_
    · obtain rfl := Option.some.inj hth
      exact ⟨rfl, fun _ _ h => by cases h⟩
    · exact hjt (h.locked.one j t th _ () hj ht hk trivial)
  | notRefreshed refresh rejected a ha =>
    exact h.quiet hlocked hat rfl h.file (fun _ hk => hk) (fun _ _ hth => by cases hth)
      (fun _ _ _ hth _ => by cases hth) fun _ => .inr ⟨refresh, rejected, a, ht, ha⟩
  | rejected access =>
    refine h.quiet hlocked hat rfl h.file (fun _ hk => hk) (fun th r hth hr => ?_)
      (fun th r rej hth hpc => ?_) fun hfree => .inl hfree
    · obtain rfl := Option.some.inj hth
      cases hr
    · obtain rfl := Option.some.inj hth
      cases hpc
  | exchanged code grant =>
    refine h.quiet hlocked hat rfl h.file (fun _ hk => hk) (fun th r hth hr => ?_)
      (fun th r rej hth hpc => ?_) fun hfree => .inl hfree
    · obtain rfl := Option.some.inj hth
      exact ⟨_, ht, hr⟩
    · obtain rfl := Option.some.inj hth
      cases hpc
  | known grant =>
    refine h.quiet hlocked hat rfl h.file (fun _ hk => hk) (fun th r hth hr => ?_)
      (fun th r rej hth hpc => ?_) fun hfree => .inl hfree
    · obtain rfl := Option.some.inj hth
      exact ⟨_, ht, hr⟩
    · obtain rfl := Option.some.inj hth
      cases hpc
  | ended pc a hpc =>
    exact h.quiet hlocked hat rfl h.file (fun _ hk => hk) (fun _ _ hth => by cases hth)
      (fun _ _ _ hth _ => by cases hth) fun hfree => .inl hfree

/-- An answer brings a coroutine at most the pair that Mattermost just made. -/
theorem held_served {pc : Pc} {a : Answer} (h : Served w pc w' a) {r : ℕ}
    (hr : held ⟨pc, some a⟩ = some r) :
    held ⟨pc, none⟩ = some r ∨ r = w.pairs.length ∧ w'.fate r = some .live := by
  cases h with
  | same _ _ ha hname =>
    cases pc with
    | lock want => cases want <;> exact .inl hr
    | me grant => exact .inl hr
    | sending access again => cases hr
    | refreshing refresh rejected =>
      cases a with
      | granted grant => exact absurd rfl (ha grant)
      | _ => cases hr
    | exchanging code =>
      cases a with
      | granted grant => exact absurd rfl (ha grant)
      | _ => cases hr
  | login code owner expiresIn =>
    obtain rfl := Option.some.inj hr
    exact .inr ⟨rfl, fate_new owner⟩
  | refreshed refresh rejected owner expiresIn hlive =>
    obtain rfl := Option.some.inj hr
    exact .inr ⟨rfl, fate_settle_new refresh owner .spent⟩
  | lost refresh rejected owner hlive => cases hr

theorem length_served {pc : Pc} {a : Answer} (h : Served w pc w' a) :
    w.pairs.length ≤ w'.pairs.length := by
  cases h <;> simp [World.settle]

/-- A refresh token is spent when the answer to its refresh arrives. -/
theorem fate_refreshing {refresh : ℕ} {rejected : Option ℕ} {a : Answer}
    (h : Served w (.refreshing refresh rejected) w' a) (ha : ∀ grant, a ≠ .granted grant)
    (hold : w.fate refresh ≠ some .spent) : w'.fate refresh ≠ some .spent := by
  cases h with
  | same _ _ _ hname => exact hold
  | refreshed refresh rejected owner expiresIn hlive => exact absurd rfl (ha _)
  | lost refresh rejected owner hlive =>
    rw [fate_settle_self owner .lost (List.getElem?_eq_some_iff.mp hlive).1]
    simp

theorem sound_serve {t : ℕ} {pc : Pc} {a : Answer} (h : Sound s) (ht : s.at t = some ⟨pc, none⟩)
    (hs : Served s.world pc w' a)
    (hlocked : Locked ⟨w', s.mem, s.threads.set t (some ⟨pc, some a⟩)⟩) :
    Sound ⟨w', s.mem, s.threads.set t (some ⟨pc, some a⟩)⟩ := by
  have hat : ∀ j, State.at ⟨w', s.mem, s.threads.set t (some ⟨pc, some a⟩)⟩ j =
      if t = j then some ⟨pc, some a⟩ else s.at j :=
    fun j => at_set s _ _ t j _ (by simp [ht])
  have hfrom : ∀ j th r, State.at ⟨w', s.mem, s.threads.set t (some ⟨pc, some a⟩)⟩ j = some th →
      held th = some r → (∃ old, s.at j = some old ∧ held old = some r) ∨
        j = t ∧ r = s.world.pairs.length ∧ w'.fate r = some .live := by
    intro j th r hj hr
    rw [hat] at hj
    split_ifs at hj with htj
    · obtain rfl := Option.some.inj hj
      rcases held_served hs hr with hr | hnew
      · exact .inl ⟨_, htj ▸ ht, hr⟩
      · exact .inr ⟨htj.symm, hnew⟩
    · exact .inl ⟨th, hj, hr⟩
  have hlt : ∀ j old r, s.at j = some old → held old = some r → r < s.world.pairs.length :=
    fun j old r hj hr => lt_of_fate (h.live j old r hj hr)
  -- while a refresh is in flight it has the lock, and is the only one
  have hlone : ∀ j th r rejected, j ≠ t → s.at j = some th → th.pc = .refreshing r rejected →
      ∀ r' rejected', pc ≠ .refreshing r' rejected' := by
    intro j th r rejected hne hj hpc r' rejected' hpc'
    exact hne (h.locked.one j t th _ () hj ht (by rw [hpc]; trivial) (by rw [hpc']; trivial))
  refine ⟨hlocked, h.file, fun k hk => ?_, fun j th r hj hr => ?_,
    fun j j' th th' r hj hj' hr hr' => ?_, fun j th r k hj hr hk => ?_,
    fun j th r rejected hj hpc => ?_, fun hfree k hk => ?_⟩
  · exact (h.known k hk).trans_le (length_served hs)
  · rcases hfrom j th r hj hr with ⟨old, hj, hr⟩ | ⟨-, -, hlive⟩
    · rw [fate_served hs (hlt j old r hj hr) fun refresh rejected hpc => ?_]
      · exact h.live j old r hj hr
      · exact (h.inFlight t _ refresh rejected ht hpc).2.2.2 j old r hj hr
    · exact hlive
  · rcases hfrom j th r hj hr with ⟨old, hold, hr⟩ | ⟨hjt, hnew, -⟩ <;>
      rcases hfrom j' th' r hj' hr' with ⟨old', hold', hr'⟩ | ⟨hjt', hnew', -⟩
    · exact h.once j j' old old' r hold hold' hr hr'
    · exact absurd hnew' (hlt j old r hold hr).ne
    · exact absurd hnew (hlt j' old' r hold' hr').ne
    · exact hjt.trans hjt'.symm
  · rcases hfrom j th r hj hr with ⟨old, hj, hr⟩ | ⟨-, rfl, -⟩
    · exact h.apart j old r k hj hr hk
    · exact (h.known k hk).ne
  · have hothers : r < s.world.pairs.length → (∀ t' th' r', s.at t' = some th' →
        held th' = some r' → r' ≠ r) → ∀ t' th' r',
        State.at ⟨w', s.mem, s.threads.set t (some ⟨pc, some a⟩)⟩ t' = some th' →
          held th' = some r' → r' ≠ r := by
      intro hr hrest t' th' r' ht' hr'
      rcases hfrom t' th' r' ht' hr' with ⟨old, ht', hr'⟩ | ⟨-, rfl, -⟩
      · exact hrest t' old r' ht' hr'
      · exact hr.ne'
    rw [hat] at hj
    split_ifs at hj with htj
    · obtain rfl := Option.some.inj hj
      obtain rfl : pc = .refreshing r rejected := hpc
      obtain ⟨hr, htok, hspent, hrest⟩ := h.inFlight t _ r rejected ht rfl
      refine ⟨hr.trans_le (length_served hs), htok, fun hg => ?_, hothers hr hrest⟩
      exact fate_refreshing hs (fun grant hga => hg grant (congrArg some hga))
        (hspent fun _ h => by cases h)
    · obtain ⟨hr, htok, hspent, hrest⟩ := h.inFlight j th r rejected hj hpc
      refine ⟨hr.trans_le (length_served hs), htok, fun hg => ?_, hothers hr hrest⟩
      change w'.fate r ≠ some .spent
      rw [fate_served hs hr fun r' rejected' hpc' =>
        absurd hpc' (hlone j th r rejected (Ne.symm htj) hj hpc r' rejected')]
      exact hspent hg
  · change w'.fate k.refresh ≠ some .spent
    rw [fate_served hs (h.known k hk) fun r rejected hpc => ?_]
    · exact h.idle hfree k hk
    · have hflag : s.mem.locked = true := h.locked.flagged t _ () ht (by rw [hpc]; trivial)
      rw [hflag] at hfree
      cases hfree

theorem sound_step {a : Act} (h : Sound s) (hs : (program username).step s a = some s') :
    Sound s' := by
  have hlocked := locked_step h.locked hs
  cases a with
  | call i =>
    obtain ⟨r, hr, rfl⟩ := Program.step_call hs
    exact sound_call h hr hlocked
  | serve t c =>
    obtain ⟨pc, w, a, ht, hv, rfl⟩ := Program.step_serve hs
    exact sound_serve h ht (served hv) hlocked
  | resume t =>
    obtain ⟨pc, a, r, ht, hr, rfl⟩ := Program.step_resume hs
    exact sound_resume h ht hr hlocked
  | env e =>
    obtain ⟨w, g, he, rfl⟩ := Program.step_env hs
    obtain ⟨hpairs, rfl, -⟩ := moved_clock he
    refine ⟨hlocked, h.file, fun k hk => ?_, fun j th r hj hr => ?_, h.once, h.apart,
      fun j th r rejected hj hpc => ?_, fun hfree k hk => ?_⟩
    all_goals simp only [World.fate, hpairs]
    · exact h.known k hk
    · exact h.live j th r hj hr
    · exact h.inFlight j th r rejected hj hpc
    · exact h.idle hfree k hk

/-- The refresh token in the state file is one that Mattermost knows, and not one whose refresh
was answered. -/
def Usable (w : World) (file : Option Tokens) : Prop :=
  ∀ k, file = some k → ∃ fate, w.fate k.refresh = some fate ∧ fate ≠ .spent

theorem sound_initial {file : Option Tokens} (h : Usable w file) : Sound (initial w file) := by
  have hnone (t : ℕ) : (initial w file).at t = none := by simp [initial, State.at]
  have hno {P : Prop} {t : ℕ} {th : Suspended Pc Answer} (ht : (initial w file).at t = some th) :
      P := by
    rw [hnone] at ht
    cases ht
  refine ⟨⟨fun t th k ht => hno ht, fun t t' th th' k ht => hno ht⟩, rfl, fun k hk => ?_,
    fun t th r ht => hno ht, fun t t' th th' r ht => hno ht, fun t th r k ht => hno ht,
    fun t th r rejected ht => hno ht, fun _ k hk => ?_⟩
  · obtain ⟨fate, hfate, -⟩ := h k hk
    exact lt_of_fate hfate
  · obtain ⟨fate, hfate, hne⟩ := h k hk
    change w.fate k.refresh ≠ some .spent
    rw [hfate]
    exact fun heq => hne (Option.some.inj heq)

theorem unspent_of_emits {a : Act} (h : Sound s) {refresh : ℕ}
    (he : .refreshSent refresh ∈ (program username).emits s a) :
    s.world.fate refresh ≠ some .spent := by
  rcases Program.mem_emits he with ⟨i, r, rfl, hr, he⟩ | ⟨t, pc, x, r, rfl, ht, hr, he⟩
  · exact absurd he ((started hr).2.2.2.1 refresh)
  · cases resumed hr with
    | refresh rejected a tokens hfree hsome =>
      obtain rfl := Event.refreshSent.inj (List.mem_singleton.mp he)
      exact h.idle hfree tokens hsome
    | _ => simp at he

/-- In every run the state file holds the tokens in use, at most one refresh is in flight, and no
refresh token whose refresh was answered is sent again. Whenever the lock is free, the file's
refresh token is not such a one, so that an agent started from it can go on. -/
theorem refreshed_once {file : Option Tokens} {acts : List Act} (hfile : Usable w file)
    (hr : (program username).run (initial w file) acts = some s) :
    s.mem.file = s.mem.tokens ∧
    (∀ t t' th th' r r' rejected rejected', s.at t = some th → s.at t' = some th' →
      th.pc = .refreshing r rejected → th'.pc = .refreshing r' rejected' → t = t') ∧
    (∀ n ∈ (program username).journal (initial w file) acts, ∀ refresh,
      n.event = .refreshSent refresh → n.world.fate refresh ≠ some .spent) ∧
    (s.mem.locked = false → Usable s.world s.mem.file) := by
  have h := run_notes (E := fun w e => ∀ refresh, e = .refreshSent refresh →
      w.fate refresh ≠ some .spent) (sound_initial hfile) (fun _ _ _ hi hs => sound_step hi hs)
    (fun m a e hi he refresh hevent => unspent_of_emits hi (hevent ▸ he)) hr
  refine ⟨h.1.file, fun t t' th th' r r' rejected rejected' ht ht' hpc hpc' => ?_, h.2, ?_⟩
  · exact h.1.locked.one t t' th th' () ht ht' (by rw [hpc]; trivial) (by rw [hpc']; trivial)
  · intro hfree k hk
    rw [h.1.file] at hk
    have hlt := h.1.known k hk
    refine ⟨s.world.pairs[k.refresh].fate, by simp [World.fate, hlt], fun heq => ?_⟩
    exact h.1.idle hfree k hk (by simp [World.fate, hlt, heq])

/-- Two requests are refused at once, and one refresh serves both. -/
def refusedRun : List Act :=
  [.call .request, .call .request, .serve 0 .go, .resume 0, .serve 1 .go, .resume 1,
   .serve 0 (.status 401), .resume 0, .serve 1 (.status 401), .resume 1, .serve 0 .go, .resume 0,
   .serve 1 .go, .serve 0 (.grant "bot" 3600), .resume 0, .resume 1, .serve 0 .go, .resume 0,
   .serve 1 .go, .resume 1]

def loggedIn : World := ⟨0, 0, [⟨"bot", .live⟩]⟩
def kept : Tokens := ⟨0, 0, 3600⟩

theorem refreshed_once_refused : ∃ s, (program "bot").run (initial loggedIn (some kept)) refusedRun =
      some s ∧ s.mem.file = s.mem.tokens ∧ s.mem.tokens = some ⟨1, 1, 3600⟩ ∧
      Usable s.world s.mem.file ∧
      ((program "bot").journal (initial loggedIn (some kept)) refusedRun).map (·.event) =
        [.sent 0, .sent 0, .refreshSent 0, .stored ⟨1, 1, 3600⟩, .sent 1, .sent 1] := by
  have hany : ((program "bot").run (initial loggedIn (some kept)) refusedRun).any (fun s =>
      s.mem.tokens = some ⟨1, 1, 3600⟩ ∧ s.mem.locked = false) = true := by decide +kernel
  obtain ⟨s, hs, hmem⟩ := (Option.any_eq_true _ _).mp hany
  obtain ⟨htokens, hfree⟩ := of_decide_eq_true hmem
  have h := refreshed_once (fun k hk => ⟨.live, by
    obtain rfl := Option.some.inj hk
    exact ⟨by decide, by decide⟩⟩) hs
  exact ⟨s, hs, h.1, htokens, h.2.2.2 hfree, by decide +kernel⟩

/-- Who owns a token never changes. -/
def Extends (w w' : World) : Prop :=
  ∀ token owner, w.owner token = some owner → w'.owner token = some owner

theorem extends_served {pc : Pc} {a : Answer} (h : Served w pc w' a) : Extends w w' := by
  intro token owner hown
  obtain ⟨pair, hpair, rfl⟩ := Option.map_eq_some_iff.mp hown
  have hlt : token < w.pairs.length := (List.getElem?_eq_some_iff.mp hpair).1
  have hsettle (refresh : ℕ) (o : String) (fate : Fate)
      (hlive : w.pairs[refresh]? = some ⟨o, .live⟩) :
      (w.settle refresh o fate).owner token = some pair.owner := by
    have hset : token < (w.pairs.set refresh ⟨o, fate⟩).length := by simpa using hlt
    rw [World.owner, World.settle, List.getElem?_append_left hset]
    by_cases hrt : refresh = token
    · subst hrt
      obtain rfl : pair = ⟨o, .live⟩ := Option.some.inj (hpair.symm.trans hlive)
      simp [List.getElem?_set_self hlt]
    · simp [List.getElem?_set_ne hrt, hpair]
  cases h with
  | same _ _ _ hname => exact hown
  | login code o expiresIn => simp [World.owner, List.getElem?_append_left hlt, hpair]
  | refreshed refresh rejected o expiresIn hlive => exact hsettle refresh o .spent hlive
  | lost refresh rejected o hlive => exact hsettle refresh o .lost hlive

/-- Both tokens of an answer are the account's. -/
def Grant.of (w : World) (owner : String) (grant : Grant) : Prop :=
  w.owner grant.access = some owner ∧ w.owner grant.refresh = some owner

theorem Grant.of.mono {grant : Grant} {owner : String} (hown : grant.of w owner)
    (h : Extends w w') : grant.of w' owner :=
  ⟨h _ _ hown.1, h _ _ hown.2⟩

/-- Whose tokens a coroutine has: a login's are of whoever logged in, until Mattermost said who
that is. -/
def Mine (username : String) (w : World) : Pc → Option Answer → Prop
  | .lock (.store grant), _ => grant.of w username
  | .refreshing _ _, some (.granted grant) => grant.of w username
  | .refreshing refresh _, _ => w.owner refresh = some username
  | .sending access _, _ => w.owner access = some username
  | .exchanging _, some (.granted grant) => ∃ owner, grant.of w owner
  | .me grant, some (.user name) => grant.of w name
  | .me grant, _ => ∃ owner, grant.of w owner
  | _, _ => True

theorem Mine.mono {pc : Pc} {a : Option Answer} (hown : Mine username w pc a)
    (h : Extends w w') : Mine username w' pc a := by
  unfold Mine at hown ⊢
  split at hown
  all_goals first
    | exact Grant.of.mono hown h
    | exact h _ _ hown
    | exact hown.imp fun _ hof => Grant.of.mono hof h
    | exact hown

theorem of_new (owner : String) (expiresIn : ℚ) :
    Grant.of { w with pairs := w.pairs ++ [⟨owner, .live⟩] } owner
      ⟨w.pairs.length, w.pairs.length, expiresIn⟩ := by
  simp [Grant.of, World.owner]

theorem of_settled (refresh : ℕ) (owner : String) (fate : Fate) (expiresIn : ℚ) :
    Grant.of (w.settle refresh owner fate) owner ⟨w.pairs.length, w.pairs.length, expiresIn⟩ := by
  simp [Grant.of, World.owner, World.settle]

/-- A coroutine's own answer: what it asked for is the account's, as Mattermost says. -/
theorem mine_answered {pc : Pc} {a : Answer} (h : Served w pc w' a)
    (hown : Mine username w pc none) : Mine username w' pc (some a) := by
  cases h with
  | same _ _ ha hname =>
    cases pc with
    | lock want => cases want <;> exact hown
    | sending access again => exact hown
    | refreshing refresh rejected =>
      cases a with
      | granted grant => exact absurd rfl (ha grant)
      | _ => exact hown
    | exchanging code =>
      cases a with
      | granted grant => exact absurd rfl (ha grant)
      | _ => trivial
    | me grant =>
      cases a with
      | user name =>
        obtain ⟨owner, haccess, hrefresh⟩ := hown
        have hsame := haccess.symm.trans (hname grant name rfl rfl)
        obtain rfl := Option.some.inj hsame
        exact ⟨haccess, hrefresh⟩
      | _ => exact hown
  | login code owner expiresIn => exact ⟨owner, of_new owner expiresIn⟩
  | refreshed refresh rejected owner expiresIn hlive =>
    have howner : w.owner refresh = some owner := by simp [World.owner, hlive]
    obtain rfl := Option.some.inj (howner.symm.trans hown)
    exact of_settled refresh _ .spent expiresIn
  | lost refresh rejected owner hlive =>
    exact extends_served (.lost refresh rejected owner hlive) _ _ hown

/-- The tokens that the agent keeps are the service account's. -/
def KeepsMine (username : String) (w : World) (g : Memory) : Prop :=
  ∀ k, g.tokens = some k → w.owner k.access = some username ∧ w.owner k.refresh = some username

def Event.Mine (username : String) (w : World) : Event → Prop
  | .refreshSent refresh => w.owner refresh = some username
  | .stored grant => grant.of w username
  | .sent access => w.owner access = some username
  | _ => True

theorem keepsMine_store {grant : Grant} {g : Memory} (h : grant.of w username) :
    KeepsMine username w (store w.now g grant) := by
  intro k hk
  obtain rfl := Option.some.inj hk
  exact h

theorem mine_resumed {g : Memory} {pc : Pc} {a : Answer} {r : Step} (h : Resumed username w g pc a r)
    (hkeeps : KeepsMine username w g) (hown : Mine username w pc (some a)) :
    KeepsMine username w r.mem ∧ (∀ pc', r.next = some pc' → Mine username w pc' none) ∧
      ∀ e ∈ r.events, e.Mine username w := by
  cases h with
  | refused rejected a hfree hnone => exact ⟨hkeeps, fun _ h => (by cases h), by simp [Event.Mine]⟩
  | refresh rejected a tokens hfree hsome =>
    refine ⟨hkeeps, fun pc' hpc => ?_, by simpa [Event.Mine] using (hkeeps tokens hsome).2⟩
    obtain rfl := Option.some.inj hpc
    exact (hkeeps tokens hsome).2
  | fresh rejected a tokens hfree hsome =>
    refine ⟨hkeeps, fun pc' hpc => ?_, by simpa [Event.Mine] using (hkeeps tokens hsome).1⟩
    obtain rfl := Option.some.inj hpc
    exact (hkeeps tokens hsome).1
  | login grant a hfree =>
    refine ⟨keepsMine_store (g := g) hown, fun _ h => (by cases h), fun e he => ?_⟩
    obtain rfl := List.mem_singleton.mp he
    exact hown
  | refreshed refresh rejected grant =>
    refine ⟨keepsMine_store (g := g) hown, fun pc' hpc => ?_, fun e he => ?_⟩
    · obtain rfl := Option.some.inj hpc
      exact hown.1
    · rcases List.mem_pair.mp he with rfl | rfl
      · exact hown
      · exact hown.1
  | notRefreshed refresh rejected a ha =>
    exact ⟨hkeeps, fun _ h => (by cases h), by simp [Event.Mine]⟩
  | rejected access =>
    refine ⟨hkeeps, fun pc' hpc => ?_, by simp⟩
    obtain rfl := Option.some.inj hpc
    trivial
  | exchanged code grant =>
    refine ⟨hkeeps, fun pc' hpc => ?_, by simp⟩
    obtain rfl := Option.some.inj hpc
    exact hown
  | known grant =>
    refine ⟨hkeeps, fun pc' hpc => ?_, by simp⟩
    obtain rfl := Option.some.inj hpc
    exact hown
  | ended pc a hpc => exact ⟨hkeeps, fun _ h => (by cases h), by simp⟩

theorem mine_started {g : Memory} {i : Call} {r : Step} (h : start w g i = some r)
    (hkeeps : KeepsMine username w g) :
    KeepsMine username w r.mem ∧ ∀ pc', r.next = some pc' → Mine username w pc' none := by
  obtain ⟨-, htokens, hnext, -⟩ := started h
  refine ⟨fun k hk => ?_, fun pc hpc => ?_⟩
  · rcases htokens with ⟨htok, -⟩ | ⟨htok, -⟩
    · exact hkeeps k (htok ▸ hk)
    · rw [htok] at hk
      cases hk
  · rcases hnext pc hpc with rfl | ⟨code, rfl⟩ <;> trivial

abbrev Owned (username : String) : St → Prop := Holds (KeepsMine username) fun w _ => Mine username w

theorem owned_step {a : Act} (h : Owned username s)
    (hs : (program username).step s a = some s') : Owned username s' := by
  refine Holds.step (C := fun _ _ => True) ?_ ?_ ?_ ?_ s a s' h trivial hs
  · intro s i r h _ hr
    obtain ⟨hkeeps, hnext⟩ := mine_started hr h.shared
    exact ⟨hkeeps, hnext, fun _ _ _ _ hown => hown⟩
  · intro s t c pc w a h _ ht hv
    have hw := extends_served (served hv)
    exact ⟨fun k hk => ⟨hw _ _ (h.shared k hk).1, hw _ _ (h.shared k hk).2⟩,
      mine_answered (served hv) (h.each t _ ht), fun _ _ _ _ _ hown => hown.mono hw⟩
  · intro s t pc a r h _ ht hr
    obtain ⟨hkeeps, hnext, -⟩ := mine_resumed (resumed hr) h.shared (h.each t _ ht)
    exact ⟨hkeeps, hnext, fun _ _ _ _ _ hown => hown⟩
  · intro s e w g h _ he
    obtain ⟨hpairs, rfl, -⟩ := moved_clock he
    have hw : Extends s.world w := by
      intro token owner hown
      simpa [World.owner, hpairs] using hown
    exact ⟨fun k hk => ⟨hw _ _ (h.shared k hk).1, hw _ _ (h.shared k hk).2⟩,
      fun _ _ _ _ hown => hown.mono hw⟩

theorem mine_emits {a : Act} (h : Owned username s) {e : Event}
    (he : e ∈ (program username).emits s a) : e.Mine username s.world := by
  rcases Program.mem_emits he with ⟨i, r, rfl, hr, he⟩ | ⟨t, pc, x, r, rfl, ht, hr, he⟩
  · cases e with
    | refreshSent refresh => exact absurd he ((started hr).2.2.2.1 refresh)
    | stored grant => exact absurd he ((started hr).2.2.2.2.1 grant)
    | sent access => exact absurd he ((started hr).2.2.2.2.2 access)
    | _ => trivial
  · exact (mine_resumed (resumed hr) h.shared (h.each t _ ht)).2.2 e he

/-- An agent started with the service account's tokens, or with none, never stores any other
account's, nor refreshes or signs its requests with one, whoever logs in: it only asks whose the
new token of a login is. -/
theorem mine_of_run {file : Option Tokens} {acts : List Act}
    (hfile : ∀ k, file = some k → w.owner k.access = some username ∧
      w.owner k.refresh = some username)
    (hr : (program username).run (initial w file) acts = some s) :
    (∀ k, s.mem.tokens = some k →
      s.world.owner k.access = some username ∧ s.world.owner k.refresh = some username) ∧
    ∀ n ∈ (program username).journal (initial w file) acts, n.event.Mine username n.world := by
  have hstart : Owned username (initial w file) :=
    ⟨fun k hk => hfile k hk, fun t th ht => by simp [initial, State.at] at ht⟩
  have h := run_notes (E := fun w e => e.Mine username w) hstart
    (fun _ _ _ hi hs => owned_step hi hs) (fun _ _ _ hi he => mine_emits hi he) hr
  exact ⟨h.1.shared, h.2⟩

/-- Somebody else logs in before the service account does. -/
def strangerRun : List Act :=
  [.call (.authorizeUrl "s1"), .call (.authorizeUrl "s2"), .call (.callback "s1" "c1"),
   .call (.callback "s2" "c2"), .serve 2 (.grant "someone" 3600), .resume 2, .serve 2 .user,
   .resume 2, .serve 3 (.grant "bot" 3600), .resume 3, .serve 3 .user, .resume 3, .serve 3 .go,
   .resume 3, .call .request, .serve 4 .go, .resume 4]

theorem mine_of_run_stranger : ∃ s, (program "bot").run (initial ⟨0, 0, []⟩ none) strangerRun =
      some s ∧ s.mem.tokens = some ⟨1, 1, 3600⟩ ∧ s.world.owner 0 = some "someone" ∧
      (∀ n ∈ (program "bot").journal (initial ⟨0, 0, []⟩ none) strangerRun,
        n.event.Mine "bot" n.world) := by
  have hany : ((program "bot").run (initial ⟨0, 0, []⟩ none) strangerRun).any (fun s =>
      s.mem.tokens = some ⟨1, 1, 3600⟩ ∧ s.world.owner 0 = some "someone") = true := by
    decide +kernel
  obtain ⟨s, hs, hmem⟩ := (Option.any_eq_true _ _).mp hany
  obtain ⟨htokens, howner⟩ := of_decide_eq_true hmem
  exact ⟨s, hs, htokens, howner, (mine_of_run (fun k hk => by cases hk) hs).2⟩

abbrev Journal := List (Note World Event)

def timesIssued (J : Journal) (state : String) : ℕ := J.countP fun n => n.event = .issued state

def timesAccepted (J : Journal) (state : String) : ℕ := J.countP fun n => n.event = .accepted state

/-- The states that wait for their login, and those that were taken up. -/
structure Issued (J : Journal) (logins : List (String × ℚ)) : Prop where
  times : ∀ state, timesAccepted J state + logins.countP (·.1 = state) ≤ timesIssued J state
  entries : ∀ e ∈ logins, ∃ n ∈ J, n.event = .issued e.1 ∧ n.world.monotonic = e.2
  taken : ∀ n ∈ J, ∀ state, n.event = .accepted state → ∃ n₀ ∈ J, n₀.event = .issued state ∧
    n.world.monotonic - n₀.world.monotonic < loginSeconds
  few : logins.length ≤ maxLogins

variable {J K : Journal} {logins : List (String × ℚ)}

theorem Issued.quiet (h : Issued J logins)
    (hK : ∀ n ∈ K, ∀ state, n.event ≠ .issued state ∧ n.event ≠ .accepted state) :
    Issued (J ++ K) logins := by
  have hissued (state : String) : timesIssued K state = 0 :=
    List.countP_eq_zero.mpr fun n hn => by simpa using (hK n hn state).1
  have haccepted (state : String) : timesAccepted K state = 0 :=
    List.countP_eq_zero.mpr fun n hn => by simpa using (hK n hn state).2
  refine ⟨fun state => ?_, fun e he => ?_, fun n hn state hevent => ?_, h.few⟩
  · have := h.times state
    simp only [timesIssued, timesAccepted] at hissued haccepted this ⊢
    rw [List.countP_append, List.countP_append, hissued, haccepted]
    exact this
  · obtain ⟨n, hn, hevent⟩ := h.entries e he
    exact ⟨n, List.mem_append_left K hn, hevent⟩
  · rcases List.mem_append.mp hn with hn | hn
    · obtain ⟨n₀, hn₀, hissue⟩ := h.taken n hn state hevent
      exact ⟨n₀, List.mem_append_left K hn₀, hissue⟩
    · exact absurd hevent (hK n hn state).2

/-- A login that is dropped is as if it had not been asked for. -/
theorem Issued.sublist (h : Issued J logins) {kept : List (String × ℚ)}
    (hsub : kept.Sublist logins) : Issued J kept :=
  ⟨fun state => (Nat.add_le_add_left (hsub.countP_le) _).trans (h.times state),
    fun e he => h.entries e (hsub.subset he), h.taken, hsub.length_le.trans h.few⟩

theorem length_setLogin (logins : List (String × ℚ)) (state : String) (at_ : ℚ) :
    (setLogin logins state at_).length ≤ logins.length + 1 := by
  unfold setLogin
  split <;> simp

theorem countP_setLogin (logins : List (String × ℚ)) (state other : String) (at_ : ℚ) :
    (setLogin logins state at_).countP (·.1 = other) ≤
      logins.countP (·.1 = other) + if other = state then 1 else 0 := by
  unfold setLogin
  split
  · rw [List.countP_map]
    refine (List.countP_mono_left fun e _ he => ?_).trans (Nat.le_add_right _ _)
    by_cases hstate : e.1 = state
    · simpa [hstate] using he
    · simpa [hstate] using he
  · rw [List.countP_append]
    apply Nat.add_le_add_left
    by_cases hother : other = state <;> simp [hother, eq_comm]

theorem mem_setLogin {state : String} {at_ : ℚ} {e : String × ℚ}
    (he : e ∈ setLogin logins state at_) : e = (state, at_) ∨ e ∈ logins := by
  unfold setLogin at he
  split at he
  · obtain ⟨old, hold, rfl⟩ := List.mem_map.mp he
    split_ifs
    · exact .inl rfl
    · exact .inr hold
  · rcases List.mem_append.mp he with he | he
    · exact .inr he
    · exact .inl (List.mem_singleton.mp he)

/-- A new login, for which there is room. -/
theorem Issued.issue (h : Issued J logins) (hroom : logins.length < maxLogins) (n : Note World Event)
    {state : String} (hevent : n.event = .issued state) :
    Issued (J ++ [n]) (setLogin logins state n.world.monotonic) := by
  refine ⟨fun other => ?_, fun e he => ?_, fun m hm other hother => ?_,
    (length_setLogin logins state _).trans hroom⟩
  · have htimes := h.times other
    have hset := countP_setLogin logins state other n.world.monotonic
    simp only [timesIssued, timesAccepted] at htimes ⊢
    rw [List.countP_append, List.countP_append, List.countP_singleton, List.countP_singleton, hevent]
    by_cases hother : other = state
    · subst hother
      simp at hset ⊢
      omega
    · simp [Ne.symm hother, hother] at hset ⊢
      omega
  · rcases mem_setLogin he with rfl | he
    · exact ⟨n, by simp, hevent, rfl⟩
    · obtain ⟨n₀, hn₀, hissue⟩ := h.entries e he
      exact ⟨n₀, List.mem_append_left _ hn₀, hissue⟩
  · rcases List.mem_append.mp hm with hm | hm
    · obtain ⟨n₀, hn₀, hissue⟩ := h.taken m hm other hother
      exact ⟨n₀, List.mem_append_left _ hn₀, hissue⟩
    · obtain rfl := List.mem_singleton.mp hm
      rw [hevent] at hother
      cases hother

/-- A login that comes back in time. -/
theorem Issued.accept (h : Issued J logins) (n : Note World Event) {e : String × ℚ} {state : String}
    (he : e ∈ logins) (hstate : e.1 = state) (htime : n.world.monotonic - e.2 < loginSeconds)
    (hevent : n.event = .accepted state) :
    Issued (J ++ [n]) (logins.filter (·.1 ≠ state)) := by
  have hkept := h.sublist (List.filter_sublist (p := fun e => e.1 ≠ state))
  refine ⟨fun other => ?_, fun e he => ?_, fun m hm other hother => ?_, hkept.few⟩
  · have htimes := h.times other
    have hfew := hkept.times other
    simp only [timesIssued, timesAccepted] at htimes hfew ⊢
    rw [List.countP_append, List.countP_append, List.countP_singleton, List.countP_singleton, hevent]
    by_cases hother : state = other
    · subst hother
      have hgone : (logins.filter (·.1 ≠ state)).countP (·.1 = state) = 0 :=
        List.countP_eq_zero.mpr fun e he => by simpa using (List.mem_filter.mp he).2
      have hpos : 0 < logins.countP (·.1 = state) :=
        List.countP_pos_iff.mpr ⟨e, he, by simpa using hstate⟩
      rw [hgone]
      simp
      omega
    · simp [hother] at hfew ⊢
      omega
  · obtain ⟨n₀, hn₀, hissue⟩ := hkept.entries e he
    exact ⟨n₀, List.mem_append_left _ hn₀, hissue⟩
  · rcases List.mem_append.mp hm with hm | hm
    · obtain ⟨n₀, hn₀, hissue⟩ := h.taken m hm other hother
      exact ⟨n₀, List.mem_append_left _ hn₀, hissue⟩
    · obtain rfl := List.mem_singleton.mp hm
      rw [hevent] at hother
      obtain rfl := Event.accepted.inj hother
      obtain ⟨n₀, hn₀, hissue, hat⟩ := h.entries e he
      exact ⟨n₀, List.mem_append_left _ hn₀, hstate ▸ hissue, hat ▸ htime⟩

/-- What a call notes, in the world and by the coroutine it starts. -/
theorem issued_started {w : World} {t : ℕ} {g : Memory} {i : Call} {r : Step}
    (h : Issued J g.logins) (hr : start w g i = some r) :
    Issued (J ++ r.events.map fun e => ⟨w, t, e⟩) r.mem.logins := by
  cases i with
  | request =>
    obtain rfl := Option.some.inj hr
    simpa using h
  | authorizeUrl state =>
    obtain rfl := Option.some.inj hr
    have hrecent := h.sublist (List.filter_sublist (p := fun e => w.monotonic - e.2 < loginSeconds))
    have hkept := hrecent.sublist (List.drop_sublist
      ((g.logins.filter fun e => w.monotonic - e.2 < loginSeconds).length + 1 - maxLogins) _)
    refine hkept.issue ?_ ⟨w, t, .issued state⟩ rfl
    rw [List.length_drop]
    unfold maxLogins
    omega
  | callback state code =>
    obtain rfl := Option.some.inj hr
    have hsub := List.filter_sublist (p := fun e => e.1 ≠ state) (l := g.logins)
    unfold callback
    dsimp only
    split
    · simpa using h.sublist hsub
    · rename_i e hfind
      split
      · simpa using h.sublist hsub
      · rename_i htime
        have hstate := List.find?_some hfind
        exact h.accept ⟨w, t, .accepted state⟩ (List.mem_of_find?_eq_some hfind)
          (by simpa using hstate) (lt_of_not_ge htime) rfl
  | forget =>
    obtain rfl := Option.some.inj hr
    simpa [forget] using h

theorem issued_resumed {g : Memory} {pc : Pc} {a : Answer} {r : Step}
    (h : Resumed username w g pc a r) : r.mem.logins = g.logins ∧
      ∀ e ∈ r.events, ∀ state, e ≠ .issued state ∧ e ≠ .accepted state := by
  cases h <;> exact ⟨rfl, by simp⟩

theorem issued_step {a : Act} (h : Issued J s.mem.logins)
    (hs : (program username).step s a = some s') :
    Issued (J ++ (program username).notes s a) s'.mem.logins := by
  cases a with
  | call i =>
    obtain ⟨r, hr, rfl⟩ := Program.step_call hs
    have hemits : (program username).emits s (.call i) = r.events := by
      simp [Program.emits, program, show start s.world s.mem i = some r from hr]
    have hnotes : (program username).notes s (.call i) =
        r.events.map fun e => ⟨s.world, s.threads.length, e⟩ := by
      simp only [Program.notes, Action.mover, hemits]
    rw [hnotes]
    exact issued_started h hr
  | serve t c =>
    obtain ⟨pc, w, a, ht, hv, rfl⟩ := Program.step_serve hs
    exact h.quiet (by simp [Program.notes, Action.mover])
  | resume t =>
    obtain ⟨pc, a, r, ht, hr, rfl⟩ := Program.step_resume hs
    obtain ⟨hlogins, hevents⟩ := issued_resumed (resumed hr)
    change Issued _ r.mem.logins
    rw [hlogins]
    refine h.quiet fun n hn state => ?_
    have hemits : (program username).emits s (.resume t) = r.events := by
      simp [Program.emits, ht, show (program username).resume s.world s.mem pc a = some r from hr]
    exact hevents n.event (hemits ▸ (emits_of_notes hn).2) state
  | env e =>
    obtain ⟨w, g, he, rfl⟩ := Program.step_env hs
    obtain ⟨-, rfl, -⟩ := moved_clock he
    exact h.quiet (by simp [Program.notes, Action.mover])

/-- In every run a state is taken up at most as often as it was issued, and less than
`loginSeconds` after, on the clock that the agent's machine cannot be set back on. No more than
`maxLogins` wait, however many are asked for. -/
theorem logins_of_run {file : Option Tokens} {acts : List Act}
    (hr : (program username).run (initial w file) acts = some s) :
    (∀ state, timesAccepted ((program username).journal (initial w file) acts) state ≤
      timesIssued ((program username).journal (initial w file) acts) state) ∧
    (∀ n ∈ (program username).journal (initial w file) acts, ∀ state, n.event = .accepted state →
      ∃ n₀ ∈ (program username).journal (initial w file) acts, n₀.event = .issued state ∧
        n.world.monotonic - n₀.world.monotonic < loginSeconds) ∧
    s.mem.logins.length ≤ maxLogins := by
  have h : Issued ((program username).journal (initial w file) acts) s.mem.logins := by
    apply Program.run_history _ _ hr
    · exact ⟨fun _ => le_refl _, by simp [initial], by simp [Program.journal, Program.trail],
        by simp [initial]⟩
    · intro acts m a m' hrun hi hs
      rw [journal_snoc a hrun]
      exact issued_step hi hs
  exact ⟨fun state => (Nat.le_add_right _ _).trans (h.times state), h.taken, h.few⟩

/-- A state that comes back twice, and one that comes back too late. -/
def returningRun : List Act :=
  [.call (.authorizeUrl "s1"), .call (.authorizeUrl "s2"), .env (.clock 0 599),
   .call (.callback "s1" "c1"), .call (.callback "s1" "c1"), .env (.clock 0 600),
   .call (.callback "s2" "c2")]

theorem logins_of_run_returning :
    ∃ s, (program "bot").run (initial ⟨0, 0, []⟩ none) returningRun = some s ∧
      timesAccepted ((program "bot").journal (initial ⟨0, 0, []⟩ none) returningRun) "s1" = 1 ∧
      timesAccepted ((program "bot").journal (initial ⟨0, 0, []⟩ none) returningRun) "s2" = 0 ∧
      s.mem.logins.length ≤ maxLogins := by
  have hsome : ((program "bot").run (initial ⟨0, 0, []⟩ none) returningRun).isSome = true := by
    decide +kernel
  obtain ⟨s, hs⟩ := Option.isSome_iff_exists.mp hsome
  exact ⟨s, hs, by decide +kernel, by decide +kernel, (logins_of_run hs).2.2⟩

end PurdueAF.MattermostTokens

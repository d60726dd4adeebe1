import PurdueAF.Coroutine
import Mathlib.Data.Rat.Defs
import Mathlib.Algebra.Order.Ring.Rat
import Mathlib.Tactic.Linarith

/-!
# The agentic interface's token cache

`resolve_user` of `agentic-interface/auth.py`: any number of requests validate tokens at the Hub
at once, and two caches remember its verdicts for a while, which may drop an entry sooner. What
the Hub fails to say is not remembered.
-/
namespace PurdueAF.TokenCache
open Coroutine

def cacheTtl : ℚ := 60
def negCacheTtl : ℚ := 5

structure User where
  username : String
  token : String
  deriving DecidableEq, Repr

/-- What `cachetools` promises of a `TTLCache`: it gives what was set under the key, less than its
lifetime ago. What it drops for its size, and in which order, is its own affair. -/
structure TTLCache (α : Type) (ttl : ℚ) where
  Table : Type
  empty : Table
  get : ℚ → Table → String → Option α × Table
  set : ℚ → Table → String → α → Table
  /-- The value was set under the key at that time, and is not dropped yet. -/
  Holds : Table → String → α → ℚ → Prop
  not_holds_empty (key : String) (x : α) (time : ℚ) : ¬Holds empty key x time
  holds_of_get {now : ℚ} {cache : Table} {key : String} {x : α}
    (h : (get now cache key).1 = some x) : ∃ time, Holds cache key x time ∧ now < time + ttl
  holds_before_get {now time : ℚ} {cache : Table} {asked key : String} {x : α}
    (h : Holds (get now cache asked).2 key x time) : Holds cache key x time
  holds_before_set {now time : ℚ} {cache : Table} {new key : String} {y x : α}
    (h : Holds (set now cache new y) key x time) :
    Holds cache key x time ∨ key = new ∧ x = y ∧ time = now

/-- The two caches that `auth.py` makes. -/
structure Caches where
  user : TTLCache User cacheTtl
  negative : TTLCache Unit negCacheTtl

structure Memory (caches : Caches) where
  userCache : caches.user.Table
  negativeCache : caches.negative.Table

/-- Whose the Hub said a token is, and when. -/
structure Verdict where
  time : ℚ
  token : String
  owner : Option String
  deriving DecidableEq, Repr

/-- The Hub, with the tokens that are good now and what it said of any so far. -/
structure World where
  now : ℚ
  owners : List (String × String)
  verdicts : List Verdict
  deriving DecidableEq, Repr

inductive Pc
  | hub (token : String)
  deriving DecidableEq, Repr

/-- `record` is the `name` of an answer with status 200, if it has one. -/
inductive Answer
  | unreachable
  | status (code : ℕ)
  | record (name : Option String)
  deriving DecidableEq, Repr

/-- How the Hub takes a request: it may say of a token what it is, or fail to. -/
inductive Choice
  | fail
  | broken (code : ℕ)
  | noRecord
  | verdict (refusal : ℕ)
  deriving DecidableEq, Repr

inductive Event
  | resolving (token : String)
  | asked (token : String)
  | stored (token : String) (owner : Option String)
  | answered (token : String) (user : Option User)
  | unavailable (token : String)
  deriving DecidableEq, Repr

inductive Move
  | clock (now : ℚ)
  | hub (owners : List (String × String))
  deriving DecidableEq, Repr

abbrev Step (caches : Caches) := Ran (Memory caches) Pc Event

variable (caches : Caches) (hash : String → String)

/-- `resolve_user`, up to the Hub. -/
def resolveUser (w : World) (g : Memory caches) (token : String) : Step caches :=
  let found := caches.user.get w.now g.userCache (hash token)
  let g := { g with userCache := found.2 }
  match found.1 with
  | some user => ⟨g, none, [.resolving token, .answered token (some user)]⟩
  | none =>
    match (caches.negative.get w.now g.negativeCache (hash token)).1 with
    | some _ => ⟨g, none, [.resolving token, .answered token none]⟩
    | none => ⟨g, some (.hub token), [.resolving token, .asked token]⟩

def serve (w : World) : Pc → Choice → Option (World × Answer)
  | .hub _, .fail => some (w, .unreachable)
  | .hub _, .broken code =>
    if code ∈ [200, 401, 403] then none else some (w, .status code)
  | .hub _, .noRecord => some (w, .record none)
  | .hub token, .verdict refusal =>
    match w.owners.find? (·.1 = token) with
    | some (_, name) =>
      some ({ w with verdicts := w.verdicts ++ [⟨w.now, token, some name⟩] }, .record (some name))
    | none =>
      if refusal = 401 ∨ refusal = 403 then
        some ({ w with verdicts := w.verdicts ++ [⟨w.now, token, none⟩] }, .status refusal)
      else none

/-- `resolve_user`, from the Hub's answer on. -/
def resume (w : World) (g : Memory caches) : Pc → Answer → Step caches
  | .hub token, .unreachable => ⟨g, none, [.unavailable token]⟩
  | .hub token, .status code =>
    if code = 401 ∨ code = 403 then
      ⟨{ g with negativeCache := caches.negative.set w.now g.negativeCache (hash token) () }, none,
        [.stored token none, .answered token none]⟩
    else ⟨g, none, [.unavailable token]⟩
  | .hub token, .record none => ⟨g, none, [.unavailable token]⟩
  | .hub token, .record (some name) =>
    if name = "" then ⟨g, none, [.unavailable token]⟩
    else
      ⟨{ g with userCache := caches.user.set w.now g.userCache (hash token) ⟨name, token⟩ }, none,
        [.stored token (some name), .answered token (some ⟨name, token⟩)]⟩

def env (w : World) (g : Memory caches) : Move → Option (World × Memory caches)
  | .clock now => if w.now ≤ now then some ({ w with now := now }, g) else none
  | .hub owners => some ({ w with owners := owners }, g)

def program : Program World (Memory caches) Pc Answer String Event Choice Move :=
  ⟨fun w g token => some (resolveUser caches hash w g token), serve,
    fun w g pc a => some (resume caches hash w g pc a), env caches⟩

abbrev St := State World (Memory caches) Pc Answer
abbrev Act := Action String Choice Move

def initial (w : World) : St caches := ⟨w, ⟨caches.user.empty, caches.negative.empty⟩, []⟩

abbrev Journal := List (Note World Event)

/-- The Hub said it of the token, between a coroutine's request of it and `arrival`. -/
def Vouched (J : Journal) (verdicts : List Verdict) (t : ℕ) (token : String)
    (owner : Option String) (arrival : ℚ) : Prop :=
  ∃ a ∈ J, a.event = .asked token ∧ a.thread = t ∧ ∃ v ∈ verdicts, v.token = token ∧
    v.owner = owner ∧ a.world.now ≤ v.time ∧ v.time ≤ arrival

/-- What the Hub said arrived at `m`, where it was stored. -/
structure Learned (J : Journal) (verdicts : List Verdict) (token : String)
    (owner : Option String) (m : Note World Event) : Prop where
  noted : m ∈ J
  stored : m.event = .stored token owner
  vouched : Vouched J verdicts m.thread token owner m.world.now

/-- How long what the Hub said is remembered. -/
def ttl : Option String → ℚ
  | some _ => cacheTtl
  | none => negCacheTtl

/-- An answer of the moment `w`: what the Hub said, remembered for less than its time. -/
def Fresh (J : Journal) (w : World) (token : String) (user : Option User) : Prop :=
  (∀ u, user = some u → u.token = token) ∧
    ∃ m, Learned J w.verdicts token (user.map (·.username)) m ∧ m.world.now ≤ w.now ∧
      w.now < m.world.now + ttl (user.map (·.username))

/-- No two tokens that were presented have the same hash. -/
def Distinct (J : Journal) : Prop :=
  ∀ n ∈ J, ∀ m ∈ J, ∀ token other, n.event = .resolving token → m.event = .resolving other →
    hash token = hash other → token = other

/-- What a coroutine has from the Hub. -/
def Pending (J : Journal) (w : World) (t : ℕ) (token : String) : Option Answer → Prop
  | none => ∃ a ∈ J, a.event = .asked token ∧ a.thread = t ∧ a.world.now ≤ w.now
  | some (.record (some name)) => Vouched J w.verdicts t token (some name) w.now
  | some (.status code) => code = 401 ∨ code = 403 → Vouched J w.verdicts t token none w.now
  | some _ => True

def UserVouched (J : Journal) (w : World) (key : String) (user : User) (time : ℚ) : Prop :=
  key = hash user.token ∧
    ∃ m, Learned J w.verdicts user.token (some user.username) m ∧ m.world.now ≤ w.now ∧
      time = m.world.now

def RefusalVouched (J : Journal) (w : World) (key : String) (time : ℚ) : Prop :=
  ∃ token m, key = hash token ∧ Learned J w.verdicts token none m ∧ m.world.now ≤ w.now ∧
    time = m.world.now

structure Sound (J : Journal) (s : St caches) : Prop where
  resolved : ∀ n ∈ J, ∀ token, n.event = .asked token → ∃ m ∈ J, m.event = .resolving token
  users : ∀ key user time, caches.user.Holds s.mem.userCache key user time →
    UserVouched hash J s.world key user time
  rejected : ∀ key time, caches.negative.Holds s.mem.negativeCache key () time →
    RefusalVouched hash J s.world key time
  pending : ∀ t token reply, s.at t = some ⟨.hub token, reply⟩ → Pending J s.world t token reply
  told : ∀ n ∈ J, ∀ token user, n.event = .answered token user → Fresh J n.world token user

section Grow
variable {J K : Journal} {w w' : World} {token : String}

/-- The world goes on: time, and what the Hub has said. -/
structure Extends (w w' : World) : Prop where
  now : w.now ≤ w'.now
  verdicts : w.verdicts ⊆ w'.verdicts

theorem Vouched.grow {t : ℕ} {owner : Option String} {arrival : ℚ} (hJ : J ⊆ K)
    (hw : Extends w w') (h : Vouched J w.verdicts t token owner arrival) :
    Vouched K w'.verdicts t token owner arrival := by
  obtain ⟨a, ha, hasked, hthread, v, hv, hrest⟩ := h
  exact ⟨a, hJ ha, hasked, hthread, v, hw.verdicts hv, hrest⟩

theorem Vouched.later {t : ℕ} {owner : Option String} {arrival later : ℚ} (hle : arrival ≤ later)
    (h : Vouched J w.verdicts t token owner arrival) : Vouched J w.verdicts t token owner later := by
  obtain ⟨a, ha, hasked, hthread, v, hv, htoken, howner, hfrom, huntil⟩ := h
  exact ⟨a, ha, hasked, hthread, v, hv, htoken, howner, hfrom, huntil.trans hle⟩

theorem Learned.grow {owner : Option String} {m : Note World Event} (hJ : J ⊆ K)
    (hw : Extends w w') (h : Learned J w.verdicts token owner m) :
    Learned K w'.verdicts token owner m :=
  ⟨hJ h.noted, h.stored, h.vouched.grow hJ hw⟩

theorem Pending.grow {t : ℕ} {reply : Option Answer} (hJ : J ⊆ K) (hw : Extends w w')
    (h : Pending J w t token reply) : Pending K w' t token reply := by
  unfold Pending at h ⊢
  split at h
  · obtain ⟨a, ha, hasked, hthread, hle⟩ := h
    exact ⟨a, hJ ha, hasked, hthread, hle.trans hw.now⟩
  · exact (h.grow hJ hw).later hw.now
  · exact fun hcode => ((h hcode).grow hJ hw).later hw.now
  · exact h

theorem Fresh.grow {user : Option User} (hJ : J ⊆ K) (h : Fresh J w token user) :
    Fresh K w token user := by
  obtain ⟨htoken, m, hlearned, hrest⟩ := h
  exact ⟨htoken, m, hlearned.grow hJ ⟨le_refl _, fun _ hv => hv⟩, hrest⟩

theorem Distinct.of_append {hash : String → String} (h : Distinct hash (J ++ K)) :
    Distinct hash J :=
  fun n hn m hm => h n (List.mem_append_left K hn) m (List.mem_append_left K hm)

end Grow

section Steps
variable {caches : Caches} {hash : String → String} {J K : Journal} {s s' : St caches}

/-- What the caches say of a token that was presented. -/
theorem fresh_of_users (h : Sound caches hash J s) (hJ : J ⊆ K) (hdistinct : Distinct hash K)
    {token : String} {user : User} (hresolving : ∃ m ∈ K, m.event = .resolving token)
    (hget : (caches.user.get s.world.now s.mem.userCache (hash token)).1 = some user) :
    Fresh K s.world token (some user) := by
  obtain ⟨time, hholds, hlive⟩ := caches.user.holds_of_get hget
  obtain ⟨hown, m, hlearned, hstored, rfl⟩ := h.users _ user time hholds
  obtain ⟨a, ha, hasked, -⟩ := hlearned.vouched
  obtain ⟨n, hn, hntoken⟩ := h.resolved a ha _ hasked
  obtain ⟨n', hn', hntoken'⟩ := hresolving
  have htoken : user.token = token :=
    hdistinct n (hJ hn) n' hn' _ _ hntoken hntoken' hown.symm
  refine ⟨fun u hu => Option.some.inj hu ▸ htoken, m, ?_, hstored, hlive⟩
  exact htoken ▸ hlearned.grow hJ ⟨le_refl _, fun _ hv => hv⟩

theorem fresh_of_rejected (h : Sound caches hash J s) (hJ : J ⊆ K) (hdistinct : Distinct hash K)
    {token : String} {x : Unit} (hresolving : ∃ m ∈ K, m.event = .resolving token)
    (hget : (caches.negative.get s.world.now s.mem.negativeCache (hash token)).1 = some x) :
    Fresh K s.world token none := by
  obtain ⟨time, hholds, hlive⟩ := caches.negative.holds_of_get hget
  obtain ⟨other, m, hown, hlearned, hstored, rfl⟩ := h.rejected _ time hholds
  obtain ⟨a, ha, hasked, -⟩ := hlearned.vouched
  obtain ⟨n, hn, hntoken⟩ := h.resolved a ha _ hasked
  obtain ⟨n', hn', hntoken'⟩ := hresolving
  obtain rfl : other = token :=
    hdistinct n (hJ hn) n' hn' _ _ hntoken hntoken' hown.symm
  exact ⟨nofun, m, hlearned.grow hJ ⟨le_refl _, fun _ hv => hv⟩, hstored, hlive⟩

/-- A step, by what it adds. -/
theorem Sound.extend (h : Sound caches hash J s) (hw : Extends s.world s'.world)
    (husers : ∀ key user time, caches.user.Holds s'.mem.userCache key user time →
      caches.user.Holds s.mem.userCache key user time ∨
        UserVouched hash (J ++ K) s'.world key user time)
    (hrejected : ∀ key time, caches.negative.Holds s'.mem.negativeCache key () time →
      caches.negative.Holds s.mem.negativeCache key () time ∨
        RefusalVouched hash (J ++ K) s'.world key time)
    (hasked : ∀ n ∈ K, ∀ token, n.event = .asked token → ∃ m ∈ K, m.event = .resolving token)
    (hpending : ∀ t token reply, s'.at t = some ⟨.hub token, reply⟩ →
      s.at t = some ⟨.hub token, reply⟩ ∨ Pending (J ++ K) s'.world t token reply)
    (htold : ∀ n ∈ K, ∀ token user, n.event = .answered token user →
      Fresh (J ++ K) n.world token user) : Sound caches hash (J ++ K) s' := by
  have hJ : J ⊆ J ++ K := List.subset_append_left J K
  refine ⟨fun n hn token hevent => ?_, fun key user time hholds => ?_, fun key time hholds => ?_,
    fun t token reply ht => ?_, fun n hn token user hevent => ?_⟩
  · rcases List.mem_append.mp hn with hn | hn
    · obtain ⟨m, hm, hmtoken⟩ := h.resolved n hn token hevent
      exact ⟨m, hJ hm, hmtoken⟩
    · obtain ⟨m, hm, hmtoken⟩ := hasked n hn token hevent
      exact ⟨m, List.mem_append_right J hm, hmtoken⟩
  · rcases husers key user time hholds with hholds | hvouched
    · obtain ⟨hkey, m, hlearned, hstored, htime⟩ := h.users key user time hholds
      exact ⟨hkey, m, hlearned.grow hJ hw, hstored.trans hw.now, htime⟩
    · exact hvouched
  · rcases hrejected key time hholds with hholds | hvouched
    · obtain ⟨token, m, hkey, hlearned, hstored, htime⟩ := h.rejected key time hholds
      exact ⟨token, m, hkey, hlearned.grow hJ hw, hstored.trans hw.now, htime⟩
    · exact hvouched
  · rcases hpending t token reply ht with ht | hp
    · exact (h.pending t token reply ht).grow hJ hw
    · exact hp
  · rcases List.mem_append.mp hn with hn | hn
    · exact (h.told n hn token user hevent).grow hJ
    · exact htold n hn token user hevent

/-- What the caches make of a call. -/
inductive Looked (hash : String → String) (w : World) (g : Memory caches) (token : String) :
    Option Pc → List Event → Prop
  | hit (user : User) (hget : (caches.user.get w.now g.userCache (hash token)).1 = some user) :
      Looked hash w g token none [.resolving token, .answered token (some user)]
  | refused (x : Unit)
      (hget : (caches.negative.get w.now g.negativeCache (hash token)).1 = some x) :
      Looked hash w g token none [.resolving token, .answered token none]
  | miss : Looked hash w g token (some (.hub token)) [.resolving token, .asked token]

theorem looked (hash : String → String) (w : World) (g : Memory caches) (token : String) :
    Looked hash w g token (resolveUser caches hash w g token).next
      (resolveUser caches hash w g token).events := by
  unfold resolveUser
  dsimp only
  split
  · rename_i user hget
    exact .hit user hget
  · split
    · rename_i x hget
      exact .refused x hget
    · exact .miss

/-- A call sets nothing in a cache. -/
theorem mem_resolveUser (hash : String → String) (w : World) (g : Memory caches)
    (token : String) : (resolveUser caches hash w g token).mem =
      { g with userCache := (caches.user.get w.now g.userCache (hash token)).2 } := by
  unfold resolveUser
  dsimp only
  split
  · rfl
  · split <;> rfl

theorem sound_call (h : Sound caches hash J s) {token : String} {r : Step caches}
    (hr : r = resolveUser caches hash s.world s.mem token)
    (hK : K = r.events.map fun e => ⟨s.world, s.threads.length, e⟩)
    (hdistinct : Distinct hash (J ++ K)) :
    Sound caches hash (J ++ K) ⟨s.world, r.mem, s.threads ++ [suspend r.next]⟩ := by
  have hJ := List.subset_append_left J K
  have hstays : Extends s.world s.world := ⟨le_refl _, fun _ hv => hv⟩
  have hmem := mem_resolveUser hash s.world s.mem token
  have hlooked := looked hash s.world s.mem token
  rw [← hr] at hmem hlooked
  have husers (key : String) (user : User) (time : ℚ)
      (hholds : caches.user.Holds r.mem.userCache key user time) :
      caches.user.Holds s.mem.userCache key user time := by
    rw [hmem] at hholds
    exact caches.user.holds_before_get hholds
  have hrejected (key : String) (time : ℚ)
      (hholds : caches.negative.Holds r.mem.negativeCache key () time) :
      caches.negative.Holds s.mem.negativeCache key () time := by
    rwa [hmem] at hholds
  clear hr hmem
  obtain ⟨mem, next, events⟩ := r
  dsimp only at hlooked hK husers hrejected ⊢
  cases hlooked with
  | hit user hget =>
    have hfresh : Fresh (J ++ K) s.world token (some user) :=
      fresh_of_users h hJ hdistinct ⟨⟨s.world, s.threads.length, .resolving token⟩, by simp [hK], rfl⟩
        hget
    refine h.extend hstays (fun key user time hh => .inl (husers key user time hh))
      (fun key time hh => .inl (hrejected key time hh)) (by simp [hK]) (fun j other reply hj => ?_)
      fun n hn other answer hevent => ?_
    · rw [at_append] at hj
      split_ifs at hj with htj
      · cases hj
      · exact .inl hj
    · subst hK
      obtain rfl | rfl := by simpa using hn
      · cases hevent
      · obtain ⟨rfl, rfl⟩ := Event.answered.inj hevent
        exact hfresh
  | refused x hget =>
    have hfresh : Fresh (J ++ K) s.world token none :=
      fresh_of_rejected h hJ hdistinct
        ⟨⟨s.world, s.threads.length, .resolving token⟩, by simp [hK], rfl⟩ hget
    refine h.extend hstays (fun key user time hh => .inl (husers key user time hh))
      (fun key time hh => .inl (hrejected key time hh)) (by simp [hK]) (fun j other reply hj => ?_)
      fun n hn other answer hevent => ?_
    · rw [at_append] at hj
      split_ifs at hj with htj
      · cases hj
      · exact .inl hj
    · subst hK
      obtain rfl | rfl := by simpa using hn
      · cases hevent
      · obtain ⟨rfl, rfl⟩ := Event.answered.inj hevent
        exact hfresh
  | miss =>
    refine h.extend hstays (fun key user time hh => .inl (husers key user time hh))
      (fun key time hh => .inl (hrejected key time hh)) (by simp [hK]) (fun j other reply hj => ?_) (by simp [hK])
    rw [at_append] at hj
    split_ifs at hj with htj
    · obtain ⟨hpc, hreply⟩ := suspend_eq_some hj
      obtain rfl : token = other := Pc.hub.inj (Option.some.inj hpc)
      obtain rfl : reply = none := hreply
      exact .inr ⟨⟨s.world, _, .asked token⟩, by simp [hK], rfl, htj, le_refl _⟩
    · exact .inl hj

/-- What the Hub answers, and what it is then known to have said. -/
theorem served {w w' : World} {t : ℕ} {token : String} {c : Choice} {a : Answer}
    (h : serve w (.hub token) c = some (w', a)) :
    Extends w w' ∧ (Pending J w t token none → Pending J w' t token (some a)) := by
  have hstays : Extends w w := ⟨le_refl _, fun _ hv => hv⟩
  have hextends (owner : Option String) : Extends w { w with verdicts := w.verdicts ++
      [⟨w.now, token, owner⟩] } := ⟨le_refl _, fun _ hv => List.mem_append_left _ hv⟩
  have hvouched (owner : Option String) (hp : Pending J w t token none) :
      Vouched J (w.verdicts ++ [⟨w.now, token, owner⟩]) t token owner w.now := by
    obtain ⟨n, hn, hasked, hthread, hle⟩ := hp
    exact ⟨n, hn, hasked, hthread, ⟨w.now, token, owner⟩, by simp, rfl, rfl, hle, le_refl _⟩
  unfold serve at h
  split at h
  · obtain ⟨rfl, rfl⟩ := Prod.mk.inj (Option.some.inj h)
    exact ⟨hstays, fun _ => trivial⟩
  · rename_i code heq
    split at h
    · cases h
    · rename_i hcode
      obtain ⟨rfl, rfl⟩ := Prod.mk.inj (Option.some.inj h)
      refine ⟨hstays, fun _ hrefused => absurd hrefused fun hr => hcode ?_⟩
      rcases hr with rfl | rfl <;> simp
  · obtain ⟨rfl, rfl⟩ := Prod.mk.inj (Option.some.inj h)
    exact ⟨hstays, fun _ => trivial⟩
  · rename_i asked refusal heq
    obtain rfl : token = asked := Pc.hub.inj heq
    split at h
    · rename_i name hfind
      obtain ⟨rfl, rfl⟩ := Prod.mk.inj (Option.some.inj h)
      exact ⟨hextends _, hvouched _⟩
    · split at h
      · obtain ⟨rfl, rfl⟩ := Prod.mk.inj (Option.some.inj h)
        exact ⟨hextends _, fun hp _ => hvouched _ hp⟩
      · cases h

theorem sound_serve (h : Sound caches hash J s) {t : ℕ} {pc : Pc} {c : Choice} {w : World} {a : Answer}
    (ht : s.at t = some ⟨pc, none⟩) (hv : serve s.world pc c = some (w, a)) :
    Sound caches hash J ⟨w, s.mem, s.threads.set t (some ⟨pc, some a⟩)⟩ := by
  obtain ⟨token⟩ := pc
  obtain ⟨hw, hpending⟩ := served (J := J) (t := t) hv
  have hsound : Sound caches hash (J ++ []) ⟨w, s.mem, s.threads.set t (some ⟨.hub token, some a⟩)⟩ := by
    refine h.extend hw (fun key user time hh => .inl hh) (fun key time hh => .inl hh)
      (by simp) (fun j other reply hj => ?_) (by simp)
    rw [at_set s _ _ t j _ (by simp [ht])] at hj
    split_ifs at hj with htj
    · cases hj
      rw [List.append_nil]
      exact .inr (htj ▸ hpending (h.pending t _ none ht))
    · exact .inl hj
  rwa [List.append_nil] at hsound

/-- What becomes of the Hub's answer. -/
inductive Resumed (hash : String → String) (w : World) (g : Memory caches) (token : String) :
    Answer → Step caches → Prop
  | unavailable (a : Answer) : Resumed hash w g token a ⟨g, none, [.unavailable token]⟩
  | refused (code : ℕ) (hcode : code = 401 ∨ code = 403) :
      Resumed hash w g token (.status code)
        ⟨{ g with negativeCache := caches.negative.set w.now g.negativeCache (hash token) () }, none,
          [.stored token none, .answered token none]⟩
  | known (name : String) :
      Resumed hash w g token (.record (some name))
        ⟨{ g with userCache := caches.user.set w.now g.userCache (hash token) ⟨name, token⟩ }, none,
          [.stored token (some name), .answered token (some ⟨name, token⟩)]⟩

theorem resumed (hash : String → String) (w : World) (g : Memory caches) (token : String)
    (a : Answer) : Resumed hash w g token a (resume caches hash w g (.hub token) a) := by
  cases a with
  | unreachable => exact .unavailable _
  | status code =>
    unfold resume
    dsimp only
    split_ifs with hcode
    · exact .refused code hcode
    · exact .unavailable _
  | record name =>
    cases name with
    | none => exact .unavailable _
    | some name =>
      unfold resume
      dsimp only
      split_ifs
      · exact .unavailable _
      · exact .known name

theorem sound_resume (h : Sound caches hash J s) {t : ℕ} {token : String} {a : Answer} {r : Step caches}
    (ht : s.at t = some ⟨.hub token, some a⟩) (hr : Resumed hash s.world s.mem token a r)
    (hK : K = r.events.map fun e => ⟨s.world, t, e⟩) :
    Sound caches hash (J ++ K) ⟨s.world, r.mem, s.threads.set t (suspend r.next)⟩ := by
  have hpending : Pending (J ++ K) s.world t token (some a) :=
    (h.pending t token (some a) ht).grow (List.subset_append_left J K) ⟨le_refl _, fun _ hv => hv⟩
  have hends : r.next = none → ∀ j other reply,
      State.at ⟨s.world, r.mem, s.threads.set t (suspend r.next)⟩ j =
        some ⟨.hub other, reply⟩ → s.at j = some ⟨.hub other, reply⟩ := by
    intro hnone j other reply hj
    rw [at_set s _ _ t j _ (by simp [ht]), hnone] at hj
    split_ifs at hj with htj
    · cases hj
    · exact hj
  refine h.extend ⟨le_refl _, fun _ hv => hv⟩ (fun key user time hh => ?_)
    (fun key time hh => ?_) ?_
    (fun j other reply hj => .inl ?_) fun n hn other user hevent => ?_
  · cases hr with
    | unavailable a => exact .inl hh
    | refused code hcode => exact .inl hh
    | known name =>
      rcases caches.user.holds_before_set hh with hh | ⟨rfl, rfl, rfl⟩
      · exact .inl hh
      · refine .inr ⟨rfl, ⟨s.world, t, .stored token (some name)⟩, ⟨?_, rfl, hpending⟩,
          le_refl _, rfl⟩
        simp [hK]
  · cases hr with
    | unavailable a => exact .inl hh
    | refused code hcode =>
      rcases caches.negative.holds_before_set hh with hh | ⟨rfl, -, rfl⟩
      · exact .inl hh
      · refine .inr ⟨token, ⟨s.world, t, .stored token none⟩, rfl, ⟨?_, rfl, hpending hcode⟩,
          le_refl _, rfl⟩
        simp [hK]
    | known name => exact .inl hh
  · cases hr <;> simp [hK]
  · cases hr <;> exact hends rfl j other reply hj
  · cases hr with
    | unavailable a =>
      obtain rfl := by simpa [hK] using hn
      cases hevent
    | refused code hcode =>
      obtain rfl | rfl := by simpa [hK] using hn
      · cases hevent
      · obtain ⟨rfl, rfl⟩ := Event.answered.inj hevent
        refine ⟨fun u hu => (by cases hu), ⟨s.world, t, .stored token none⟩,
          ⟨by simp [hK], rfl, hpending hcode⟩, le_refl _, ?_⟩
        norm_num [ttl, negCacheTtl]
    | known name =>
      obtain rfl | rfl := by simpa [hK] using hn
      · cases hevent
      · obtain ⟨rfl, rfl⟩ := Event.answered.inj hevent
        refine ⟨fun u hu => Option.some.inj hu ▸ rfl, ⟨s.world, t, .stored token (some name)⟩,
          ⟨by simp [hK], rfl, hpending⟩, le_refl _, ?_⟩
        norm_num [ttl, cacheTtl]

theorem sound_step {a : Act} (h : Sound caches hash J s)
    (hdistinct : Distinct hash (J ++ (program caches hash).notes s a))
    (hs : (program caches hash).step s a = some s') :
    Sound caches hash (J ++ (program caches hash).notes s a) s' := by
  cases a with
  | call token =>
    obtain ⟨r, hr, rfl⟩ := Program.step_call hs
    obtain rfl := Option.some.inj hr
    exact sound_call h rfl rfl hdistinct
  | serve t c =>
    obtain ⟨pc, w, a, ht, hv, rfl⟩ := Program.step_serve hs
    have hnotes : (program caches hash).notes s (.serve t c) = [] := rfl
    rw [hnotes, List.append_nil]
    exact sound_serve h ht hv
  | resume t =>
    obtain ⟨pc, a, r, ht, hr, rfl⟩ := Program.step_resume hs
    obtain ⟨token⟩ := pc
    obtain rfl := Option.some.inj hr
    refine sound_resume h ht (resumed hash s.world s.mem token a) ?_
    simp [Program.notes, Action.mover, Program.emits, ht, program]
  | env e =>
    obtain ⟨w, g, he, rfl⟩ := Program.step_env hs
    have hnotes : (program caches hash).notes s (.env e) = [] := rfl
    rw [hnotes]
    have hkept : Extends s.world w ∧ g = s.mem := by
      cases e with
      | clock now =>
        simp only [program, env] at he
        split at he
        · rename_i hle
          obtain ⟨rfl, rfl⟩ := Prod.mk.inj (Option.some.inj he)
          exact ⟨⟨hle, fun _ hv => hv⟩, rfl⟩
        · cases he
      | hub owners =>
        obtain ⟨rfl, rfl⟩ := Prod.mk.inj (Option.some.inj he)
        exact ⟨⟨le_refl _, fun _ hv => hv⟩, rfl⟩
    obtain ⟨hw, rfl⟩ := hkept
    exact h.extend hw (fun key user time hh => .inl hh) (fun key time hh => .inl hh) (by simp)
      (fun j other reply hj => .inl hj) (by simp)

end Steps

/-- In every run each answer is what the Hub said of that token, at a moment after its request was
sent, and given within `cacheTtl` of its arrival where the token is good and `negCacheTtl` where it
is not: however requests overlap, whatever the caches drop, and whatever the Hub fails to say. -/
theorem fresh_of_run {caches : Caches} {hash : String → String} {w : World} {acts : List Act} {s : St caches}
    (hdistinct : Distinct hash ((program caches hash).journal (initial caches w) acts))
    (hr : (program caches hash).run (initial caches w) acts = some s) :
    ∀ n ∈ (program caches hash).journal (initial caches w) acts, ∀ token user,
      n.event = .answered token user →
        Fresh ((program caches hash).journal (initial caches w) acts) n.world token user := by
  have hstart : Sound caches hash [] (initial caches w) :=
    ⟨by simp, fun key user time hh => absurd hh (caches.user.not_holds_empty key user time),
      fun key time hh => absurd hh (caches.negative.not_holds_empty key () time),
      fun t token reply ht => by simp [initial, State.at] at ht, by simp⟩
  have h : Distinct hash ((program caches hash).journal (initial caches w) acts) →
      Sound caches hash ((program caches hash).journal (initial caches w) acts) s := by
    apply Program.run_history _ _ hr
    · exact fun _ => hstart
    · intro acts m a m' hrun hi hs hd
      rw [journal_snoc a hrun] at hd ⊢
      exact sound_step (hi hd.of_append) hd hs
  exact (h hdistinct).told

structure Entry (α : Type) where
  key : String
  value : α
  time : ℚ
  deriving DecidableEq, Repr

/-- A list of what was set, the least recently used first, of which no more than `maxsize` stay. -/
def lru (α : Type) (ttl : ℚ) (maxsize : ℕ) : TTLCache α ttl where
  Table := List (Entry α)
  empty := []
  get now cache key :=
    match cache.find? fun e => e.key = key && now < e.time + ttl with
    | some e => (some e.value, cache.filter (·.key ≠ key) ++ [e])
    | none => (none, cache)
  set now cache key x :=
    let others := cache.filter fun e => e.key ≠ key && now < e.time + ttl
    others.drop (others.length + 1 - maxsize) ++ [⟨key, x, now⟩]
  Holds cache key x time := ⟨key, x, time⟩ ∈ cache
  not_holds_empty _ _ _ := List.not_mem_nil
  holds_of_get h := by
    split at h
    · rename_i e he
      have hfound := List.find?_some he
      simp only [Bool.and_eq_true, decide_eq_true_eq] at hfound
      obtain rfl := Option.some.inj h
      exact ⟨e.time, hfound.1 ▸ List.mem_of_find?_eq_some he, hfound.2⟩
    · cases h
  holds_before_get h := by
    split at h
    · rename_i e he
      rcases List.mem_append.mp h with h | h
      · exact (List.mem_filter.mp h).1
      · exact List.mem_singleton.mp h ▸ List.mem_of_find?_eq_some he
    · exact h
  holds_before_set h := by
    rcases List.mem_append.mp h with h | h
    · exact .inl (List.mem_filter.mp (List.mem_of_mem_drop h)).1
    · exact .inr (by simpa using h)

/-- `_user_cache` and `_negative_cache` -/
def authCaches : Caches := ⟨lru User cacheTtl 1024, lru Unit negCacheTtl 4096⟩

/-- A token that is revoked while an answer of it is remembered. -/
def revokedRun : List Act :=
  [.call "t1", .serve 0 (.verdict 403), .resume 0, .env (.hub []), .env (.clock 59), .call "t1",
   .env (.clock 60), .call "t1", .serve 2 (.verdict 403), .resume 2]

theorem fresh_of_run_revoked : ∃ s, (program authCaches id).run (initial authCaches ⟨0, [("t1", "alice")], []⟩) revokedRun =
      some s ∧
    ((program authCaches id).journal (initial authCaches ⟨0, [("t1", "alice")], []⟩) revokedRun).map (·.event) =
      [.resolving "t1", .asked "t1", .stored "t1" (some "alice"),
       .answered "t1" (some ⟨"alice", "t1"⟩), .resolving "t1",
       .answered "t1" (some ⟨"alice", "t1"⟩), .resolving "t1", .asked "t1", .stored "t1" none,
       .answered "t1" none] ∧
    ∀ n ∈ (program authCaches id).journal (initial authCaches ⟨0, [("t1", "alice")], []⟩) revokedRun, ∀ token user,
      n.event = .answered token user →
        Fresh ((program authCaches id).journal (initial authCaches ⟨0, [("t1", "alice")], []⟩) revokedRun) n.world token
          user := by
  have hsome : ((program authCaches id).run (initial authCaches ⟨0, [("t1", "alice")], []⟩) revokedRun).isSome = true := by
    decide +kernel
  obtain ⟨s, hs⟩ := Option.isSome_iff_exists.mp hsome
  exact ⟨s, hs, by decide +kernel, fresh_of_run (fun n hn m hm token other hn' hm' heq => heq) hs⟩

end PurdueAF.TokenCache

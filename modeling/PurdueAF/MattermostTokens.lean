import PurdueAF.Coroutine
import Mathlib.Data.Rat.Defs
import Mathlib.Algebra.Order.Ring.Rat

/-!
# The agent's own login on Mattermost

`OAuth` of `mattermost-agent/agent.py`: requests carry an access token, a refresh replaces both
tokens, and a login in a browser brings the first ones. Any number of requests and logins go on
at once; a lock keeps refreshes and stores apart. Tokens are numbered as Mattermost gives them
out, the access token and the refresh token of one answer alike.
-/
namespace PurdueAF.MattermostTokens
open Coroutine

def loginSeconds : ℚ := 600
def maxLogins : ℕ := 32
def expiryMarginSeconds : ℚ := 300

/-- What Mattermost answers a login or a refresh with. -/
structure Grant where
  access : ℕ
  refresh : ℕ
  expiresIn : ℚ
  deriving DecidableEq, Repr

structure Tokens where
  access : ℕ
  refresh : ℕ
  expiresAt : ℚ
  deriving DecidableEq, Repr

/-- `file` is what the state file holds, `locked` whether a coroutine has the lock. -/
structure Memory where
  tokens : Option Tokens
  file : Option Tokens
  logins : List (String × ℚ)
  ready : Bool
  locked : Bool
  deriving DecidableEq, Repr

/-- What became of a refresh token: a refresh used it up, whose answer may have been lost. -/
inductive Fate
  | live | spent | lost
  deriving DecidableEq, Repr

structure Pair where
  owner : String
  fate : Fate
  deriving DecidableEq, Repr

/-- Mattermost, and the two clocks: that of the day, which may be set to anything, and one that
only goes on. -/
structure World where
  now : ℚ
  monotonic : ℚ
  pairs : List Pair
  deriving DecidableEq, Repr

/-- What a coroutine wants the lock for. -/
inductive Want
  | token (rejected : Option ℕ)
  | store (grant : Grant)
  deriving DecidableEq, Repr

inductive Pc
  | lock (want : Want)
  | refreshing (refresh : ℕ) (rejected : Option ℕ)
  | sending (access : ℕ) (again : Bool)
  | exchanging (code : String)
  | me (grant : Grant)
  deriving DecidableEq, Repr

inductive Answer
  | failed
  | status (code : ℕ)
  | granted (grant : Grant)
  | user (name : String)
  | go
  deriving DecidableEq, Repr

/-- How Mattermost takes a request. -/
inductive Choice
  | fail
  | lose
  | status (code : ℕ)
  | grant (owner : String) (expiresIn : ℚ)
  | user
  | go
  deriving DecidableEq, Repr

inductive Event
  | issued (state : String)
  | accepted (state : String)
  | refreshSent (refresh : ℕ)
  | stored (grant : Grant)
  | sent (access : ℕ)
  | unauthorized
  deriving DecidableEq, Repr

/-- A state is drawn at random in `authorize_url`; `forget` is what `run` does when Mattermost
refused the tokens. -/
inductive Call
  | request
  | authorizeUrl (state : String)
  | callback (state code : String)
  | forget
  deriving DecidableEq, Repr

inductive Move
  | clock (now monotonic : ℚ)
  deriving DecidableEq, Repr

abbrev Step := Ran Memory Pc Event

/-- `store` -/
def store (now : ℚ) (g : Memory) (grant : Grant) : Memory :=
  let tokens : Tokens := ⟨grant.access, grant.refresh, now + grant.expiresIn⟩
  { g with tokens := some tokens, file := some tokens }

/-- `forget` -/
def forget (g : Memory) : Memory := { g with tokens := none, file := none, ready := false }

/-- `logins[state] = at`: a new state goes last. -/
def setLogin (logins : List (String × ℚ)) (state : String) (at_ : ℚ) : List (String × ℚ) :=
  if logins.any (·.1 = state) then
    logins.map fun e => if e.1 = state then (state, at_) else e
  else logins ++ [(state, at_)]

/-- `authorize_url`: the logins that are too old go, and then the oldest of too many. -/
def authorizeUrl (monotonic : ℚ) (g : Memory) (state : String) : Memory :=
  let recent := g.logins.filter fun e => monotonic - e.2 < loginSeconds
  let kept := recent.drop (recent.length + 1 - maxLogins)
  { g with logins := setLogin kept state monotonic }

/-- The start of `callback`: a state works once. -/
def callback (monotonic : ℚ) (g : Memory) (state code : String) : Step :=
  let taken := { g with logins := g.logins.filter (·.1 ≠ state) }
  match g.logins.find? (·.1 = state) with
  | none => ⟨taken, none, []⟩
  | some e =>
    if loginSeconds ≤ monotonic - e.2 then ⟨taken, none, []⟩
    else ⟨taken, some (.exchanging code), [.accepted state]⟩

def start (w : World) (g : Memory) : Call → Option Step
  | .request => some ⟨g, some (.lock (.token none)), []⟩
  | .authorizeUrl state => some ⟨authorizeUrl w.monotonic g state, none, [.issued state]⟩
  | .callback state code => some (callback w.monotonic g state code)
  | .forget => some ⟨forget g, none, []⟩

def World.settle (w : World) (refresh : ℕ) (owner : String) (fate : Fate) : World :=
  { w with pairs := w.pairs.set refresh ⟨owner, fate⟩ ++ [⟨owner, .live⟩] }

/-- Mattermost: each refresh token is good for one refresh, and a token's owner never changes. -/
def serve (w : World) : Pc → Choice → Option (World × Answer)
  | .lock _, .go => some (w, .go)
  | .lock _, _ => none
  | _, .fail => some (w, .failed)
  | _, .status code => some (w, .status code)
  | .exchanging _, .grant owner expiresIn =>
    some ({ w with pairs := w.pairs ++ [⟨owner, .live⟩] },
      .granted ⟨w.pairs.length, w.pairs.length, expiresIn⟩)
  | .refreshing refresh _, .grant _ expiresIn =>
    match w.pairs[refresh]? with
    | some ⟨owner, .live⟩ => some (w.settle refresh owner .spent,
        .granted ⟨w.pairs.length, w.pairs.length, expiresIn⟩)
    | _ => none
  | .refreshing refresh _, .lose =>
    match w.pairs[refresh]? with
    | some ⟨owner, .live⟩ => some (w.settle refresh owner .lost, .failed)
    | _ => none
  | .me grant, .user => (w.pairs[grant.access]?).map fun pair => (w, .user pair.owner)
  | .sending _ _, .go => some (w, .go)
  | _, _ => none

/-- `token` once it has the lock: the live access token, unless it is the one just rejected. -/
def token (now : ℚ) (g : Memory) (rejected : Option ℕ) : Step :=
  match g.tokens with
  | none => ⟨g, none, [.unauthorized]⟩
  | some tokens =>
    let fresh := now < tokens.expiresAt - expiryMarginSeconds
    if some tokens.access = rejected ∨ ¬fresh then
      ⟨{ g with locked := true }, some (.refreshing tokens.refresh rejected),
        [.refreshSent tokens.refresh]⟩
    else ⟨g, some (.sending tokens.access rejected.isSome), [.sent tokens.access]⟩

/-- A coroutine that finds the lock taken does not run on. -/
def resume (username : String) (w : World) (g : Memory) (pc : Pc) (a : Answer) : Option Step :=
  match pc, a with
  | .lock want, _ =>
    if g.locked then none
    else
      match want with
      | .token rejected => some (token w.now g rejected)
      | .store grant => some ⟨{ store w.now g grant with ready := true }, none, [.stored grant]⟩
  | .refreshing _ rejected, .granted grant =>
    some ⟨{ store w.now g grant with locked := false },
      some (.sending grant.access rejected.isSome), [.stored grant, .sent grant.access]⟩
  | .refreshing _ _, _ => some ⟨{ g with locked := false }, none, [.unauthorized]⟩
  | .sending access again, .status 401 =>
    if again then some ⟨g, none, []⟩ else some ⟨g, some (.lock (.token (some access))), []⟩
  | .sending _ _, _ => some ⟨g, none, []⟩
  | .exchanging _, .granted grant => some ⟨g, some (.me grant), []⟩
  | .exchanging _, _ => some ⟨g, none, []⟩
  | .me grant, .user name =>
    if name ≠ username then some ⟨g, none, []⟩ else some ⟨g, some (.lock (.store grant)), []⟩
  | .me _, _ => some ⟨g, none, []⟩

def env (w : World) (g : Memory) : Move → Option (World × Memory)
  | .clock now monotonic =>
    if w.monotonic ≤ monotonic then some ({ w with now := now, monotonic := monotonic }, g)
    else none

def program (username : String) :
    Program World Memory Pc Answer Call Event Choice Move :=
  ⟨start, serve, resume username, env⟩

abbrev St := State World Memory Pc Answer
abbrev Act := Action Call Choice Move

/-- A start of the agent: it reads what the state file holds. -/
def initial (w : World) (file : Option Tokens) : St := ⟨w, ⟨file, file, [], file.isSome, false⟩, []⟩

def World.fate (w : World) (refresh : ℕ) : Option Fate := (w.pairs[refresh]?).map (·.fate)

def World.owner (w : World) (token : ℕ) : Option String := (w.pairs[token]?).map (·.owner)

/-- What a coroutine does when it has the lock, or an answer, with what it finds. -/
inductive Resumed (username : String) (w : World) (g : Memory) : Pc → Answer → Step → Prop
  | refused (rejected : Option ℕ) (a : Answer) (hfree : g.locked = false) (hnone : g.tokens = none) :
      Resumed username w g (.lock (.token rejected)) a ⟨g, none, [.unauthorized]⟩
  | refresh (rejected : Option ℕ) (a : Answer) (tokens : Tokens) (hfree : g.locked = false)
      (hsome : g.tokens = some tokens) :
      Resumed username w g (.lock (.token rejected)) a
        ⟨{ g with locked := true }, some (.refreshing tokens.refresh rejected),
          [.refreshSent tokens.refresh]⟩
  | fresh (rejected : Option ℕ) (a : Answer) (tokens : Tokens) (hfree : g.locked = false)
      (hsome : g.tokens = some tokens) :
      Resumed username w g (.lock (.token rejected)) a
        ⟨g, some (.sending tokens.access rejected.isSome), [.sent tokens.access]⟩
  | login (grant : Grant) (a : Answer) (hfree : g.locked = false) :
      Resumed username w g (.lock (.store grant)) a
        ⟨{ store w.now g grant with ready := true }, none, [.stored grant]⟩
  | refreshed (refresh : ℕ) (rejected : Option ℕ) (grant : Grant) :
      Resumed username w g (.refreshing refresh rejected) (.granted grant)
        ⟨{ store w.now g grant with locked := false },
          some (.sending grant.access rejected.isSome), [.stored grant, .sent grant.access]⟩
  | notRefreshed (refresh : ℕ) (rejected : Option ℕ) (a : Answer)
      (ha : ∀ grant, a ≠ .granted grant) :
      Resumed username w g (.refreshing refresh rejected) a
        ⟨{ g with locked := false }, none, [.unauthorized]⟩
  | rejected (access : ℕ) :
      Resumed username w g (.sending access false) (.status 401)
        ⟨g, some (.lock (.token (some access))), []⟩
  | exchanged (code : String) (grant : Grant) :
      Resumed username w g (.exchanging code) (.granted grant) ⟨g, some (.me grant), []⟩
  | known (grant : Grant) :
      Resumed username w g (.me grant) (.user username) ⟨g, some (.lock (.store grant)), []⟩
  | ended (pc : Pc) (a : Answer) (hpc : ∀ refresh rejected, pc ≠ .refreshing refresh rejected) :
      Resumed username w g pc a ⟨g, none, []⟩

theorem resumed {username : String} {w : World} {g : Memory} {pc : Pc} {a : Answer} {r : Step}
    (h : resume username w g pc a = some r) : Resumed username w g pc a r := by
  unfold resume at h
  split at h
  · rename_i want a
    split at h
    · cases h
    · rename_i hfree
      have hfree : g.locked = false := by simpa using hfree
      split at h
      · rename_i rejected
        obtain rfl := Option.some.inj h
        unfold token
        split
        · rename_i hnone
          exact .refused rejected a hfree hnone
        · rename_i tokens hsome
          dsimp only
          split_ifs
          · exact .refresh rejected a tokens hfree hsome
          · exact .fresh rejected a tokens hfree hsome
      · rename_i grant
        obtain rfl := Option.some.inj h
        exact .login grant a hfree
  · obtain rfl := Option.some.inj h
    exact .refreshed _ _ _
  · rename_i hne
    obtain rfl := Option.some.inj h
    exact .notRefreshed _ _ _ fun grant heq => hne grant heq
  · split at h
    · obtain rfl := Option.some.inj h
      exact .ended _ _ fun _ _ h => by cases h
    · rename_i access again hagain
      obtain rfl := Option.some.inj h
      obtain rfl : again = false := by simpa using hagain
      exact .rejected access
  · obtain rfl := Option.some.inj h
    exact .ended _ _ fun _ _ h => by cases h
  · obtain rfl := Option.some.inj h
    exact .exchanged _ _
  · obtain rfl := Option.some.inj h
    exact .ended _ _ fun _ _ h => by cases h
  · rename_i grant name
    split at h
    · obtain rfl := Option.some.inj h
      exact .ended _ _ fun _ _ h => by cases h
    · rename_i hname
      obtain rfl := Option.some.inj h
      obtain rfl : name = username := by simpa using hname
      exact .known grant
  · obtain rfl := Option.some.inj h
    exact .ended _ _ fun _ _ h => by cases h

/-- What Mattermost does with its tokens. -/
inductive Served (w : World) : Pc → World → Answer → Prop
  | same (pc : Pc) (a : Answer) (ha : ∀ grant, a ≠ .granted grant)
      (hname : ∀ grant name, pc = .me grant → a = .user name → w.owner grant.access = some name) :
      Served w pc w a
  | login (code owner : String) (expiresIn : ℚ) :
      Served w (.exchanging code) { w with pairs := w.pairs ++ [⟨owner, .live⟩] }
        (.granted ⟨w.pairs.length, w.pairs.length, expiresIn⟩)
  | refreshed (refresh : ℕ) (rejected : Option ℕ) (owner : String) (expiresIn : ℚ)
      (hlive : w.pairs[refresh]? = some ⟨owner, .live⟩) :
      Served w (.refreshing refresh rejected) (w.settle refresh owner .spent)
        (.granted ⟨w.pairs.length, w.pairs.length, expiresIn⟩)
  | lost (refresh : ℕ) (rejected : Option ℕ) (owner : String)
      (hlive : w.pairs[refresh]? = some ⟨owner, .live⟩) :
      Served w (.refreshing refresh rejected) (w.settle refresh owner .lost) .failed

theorem served {w w' : World} {pc : Pc} {c : Choice} {a : Answer}
    (h : serve w pc c = some (w', a)) : Served w pc w' a := by
  unfold serve at h
  split at h
  · obtain ⟨rfl, rfl⟩ := Prod.mk.inj (Option.some.inj h)
    exact .same _ _ (fun _ h => by cases h) fun _ _ _ h => by cases h
  · cases h
  · obtain ⟨rfl, rfl⟩ := Prod.mk.inj (Option.some.inj h)
    exact .same _ _ (fun _ h => by cases h) fun _ _ _ h => by cases h
  · obtain ⟨rfl, rfl⟩ := Prod.mk.inj (Option.some.inj h)
    exact .same _ _ (fun _ h => by cases h) fun _ _ _ h => by cases h
  · obtain ⟨rfl, rfl⟩ := Prod.mk.inj (Option.some.inj h)
    exact .login _ _ _
  · split at h
    · rename_i hlive
      obtain ⟨rfl, rfl⟩ := Prod.mk.inj (Option.some.inj h)
      exact .refreshed _ _ _ _ hlive
    · cases h
  · split at h
    · rename_i hlive
      obtain ⟨rfl, rfl⟩ := Prod.mk.inj (Option.some.inj h)
      exact .lost _ _ _ hlive
    · cases h
  · rename_i grant
    obtain ⟨pair, hpair, hw⟩ := Option.map_eq_some_iff.mp h
    obtain ⟨rfl, rfl⟩ := Prod.mk.inj hw
    refine .same _ _ (fun _ h => by cases h) fun g name hpc ha => ?_
    obtain rfl := Pc.me.inj hpc
    obtain rfl := Answer.user.inj ha
    simp [World.owner, hpair]
  · obtain ⟨rfl, rfl⟩ := Prod.mk.inj (Option.some.inj h)
    exact .same _ _ (fun _ h => by cases h) fun _ _ _ h => by cases h
  · cases h

/-- What a call does before it waits: none but `forget` touches the tokens. -/
theorem started {w : World} {g : Memory} {i : Call} {r : Step} (h : start w g i = some r) :
    r.mem.locked = g.locked ∧
      (r.mem.tokens = g.tokens ∧ r.mem.file = g.file ∨
        r.mem.tokens = none ∧ r.mem.file = none) ∧
      (∀ pc, r.next = some pc → pc = .lock (.token none) ∨ ∃ code, pc = .exchanging code) ∧
      (∀ refresh, .refreshSent refresh ∉ r.events) ∧ (∀ grant, .stored grant ∉ r.events) ∧
      ∀ access, .sent access ∉ r.events := by
  cases i with
  | request =>
    obtain rfl := Option.some.inj h
    exact ⟨rfl, .inl ⟨rfl, rfl⟩, fun pc hpc => .inl (Option.some.inj hpc).symm, by simp⟩
  | authorizeUrl state =>
    obtain rfl := Option.some.inj h
    exact ⟨rfl, .inl ⟨rfl, rfl⟩, fun pc hpc => (by cases hpc), by simp⟩
  | callback state code =>
    obtain rfl := Option.some.inj h
    unfold callback
    dsimp only
    split
    · exact ⟨rfl, .inl ⟨rfl, rfl⟩, fun pc hpc => (by cases hpc), by simp⟩
    · split
      · exact ⟨rfl, .inl ⟨rfl, rfl⟩, fun pc hpc => (by cases hpc), by simp⟩
      · exact ⟨rfl, .inl ⟨rfl, rfl⟩, fun pc hpc => .inr ⟨code, (Option.some.inj hpc).symm⟩,
          by simp⟩
  | forget =>
    obtain rfl := Option.some.inj h
    exact ⟨rfl, .inr ⟨rfl, rfl⟩, fun pc hpc => (by cases hpc), by simp⟩

theorem moved_clock {w w' : World} {g g' : Memory} {e : Move} (h : env w g e = some (w', g')) :
    w'.pairs = w.pairs ∧ g' = g ∧ w.monotonic ≤ w'.monotonic := by
  obtain ⟨now, monotonic⟩ := e
  simp only [env] at h
  split at h
  · rename_i hle
    obtain ⟨rfl, rfl⟩ := Prod.mk.inj (Option.some.inj h)
    exact ⟨rfl, rfl, hle⟩
  · cases h

end PurdueAF.MattermostTokens

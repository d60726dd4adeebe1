import PurdueAF.Coroutine
import PurdueAF.Dict
import Mathlib.Data.Rat.Defs
import Mathlib.Algebra.Order.Ring.Rat

/-!
# Who on Mattermost is who on the Hub

`Linking` of `mattermost-agent/agent.py`: a link is made for a Mattermost user, taken up by a
login on the Hub, and finished by the code of that login in a message of the user's. The Hub
answers anything, or fails; states and codes are drawn at random, and anyone may guess them.
The file that `linked` and `pending` are saved to is left out.
-/
namespace PurdueAF.MattermostLinking
open Coroutine

def linkSeconds : ℚ := 24 * 3600
def tokenSeconds : ℚ := 30 * 24 * 3600
def codeSeconds : ℚ := 600
def codeLetters : List Char := "ABCDEFGHJKMNPQRSTUVWXYZ23456789".toList
def codeLength : ℕ := 8
def codeAttempts : ℕ := 3

/-- What `CODE_MESSAGE` matches, which `handle` passes on to `confirm`. -/
def codeMessage (command : String) : Bool :=
  command.toList.length = codeLength && command.toList.all codeLetters.contains

structure Pending where
  user : String
  expiresAt : ℚ

structure Code where
  code : String
  oauthToken : String
  hubUser : String
  expiresAt : ℚ
  attempts : ℕ

/-- What `mint` returns. -/
structure Minted where
  token : String
  tokenId : String
  hubUser : String
  expiresAt : ℚ

structure Memory where
  linked : Dict String Minted
  pending : Dict String Pending
  codes : Dict String Code

/-- The clock, which may be set to anything. -/
structure World where
  now : ℚ

/-- The Hub's API that a thread awaits, with what it keeps. -/
inductive Pc
  | exchange (user : String)
  | owner (user oauthToken : String)
  | mint (user hubUser oauthToken : String)
  | retire (user : String) (minted : Minted)

/-- The Hub's answers; with the owner's name, the code that is drawn then. -/
inductive Answer
  | failed
  | oauthToken (token : String)
  | owner (name : Option String) (confirmation : String)
  | minted (token tokenId : String)
  | retired

inductive Event
  | issued (user state : String)
  | took (state user : String)
  | gave (user hubUser code : String)
  | wrong (user : String)
  | accepted (user code : String)
  | linked (user hubUser : String)
  | returned (answer : Option String)
  | raised
  deriving DecidableEq

/-- A state is drawn at random in `link_url`. -/
inductive Call
  | linkUrl (user state : String)
  | login (state code : String)
  | confirm (user code : String)
  | forget (user : String)

inductive Move
  | clock (now : ℚ)

abbrev Step := Ran Memory Pc Event

def returns (g : Memory) (answer : Option String) : Step := ⟨g, none, [.returned answer]⟩

def raises (g : Memory) : Step := ⟨g, none, [.raised]⟩

def linkUrl (now : ℚ) (g : Memory) (user state : String) : Memory :=
  let pending := List.filter (fun e => e.2.user ≠ user && now < e.2.expiresAt) g.pending
  { g with pending := Dict.set pending state ⟨user, now + linkSeconds⟩ }

/-- The entry of a state that is valid. -/
def valid? (now : ℚ) (g : Memory) (state : String) : Option Pending :=
  (g.pending.get? state).filter fun e => now < e.expiresAt

def login (now : ℚ) (g : Memory) (state : String) : Step :=
  match valid? now g state with
  | none => returns g none
  | some entry =>
    ⟨{ g with pending := g.pending.pop state }, some (.exchange entry.user), [.took state entry.user]⟩

def confirm (now : ℚ) (g : Memory) (user code : String) : Step :=
  match g.codes.get? user with
  | none => returns g none
  | some entry =>
    if entry.expiresAt ≤ now then returns { g with codes := g.codes.pop user } none
    else if entry.code ≠ code then
      let attempts := entry.attempts + 1
      ⟨{ g with codes := if codeAttempts ≤ attempts then g.codes.pop user
          else g.codes.set user { entry with attempts := attempts } },
        none, [.wrong user, .returned none]⟩
    else
      ⟨{ g with codes := g.codes.pop user }, some (.mint user entry.hubUser entry.oauthToken),
        [.accepted user code]⟩

def start (w : World) (g : Memory) : Call → Option Step
  | .linkUrl user state => some ⟨linkUrl w.now g user state, none, [.issued user state]⟩
  | .login state _ => some (login w.now g state)
  | .confirm user code => if codeMessage code then some (confirm w.now g user code) else none
  | .forget user => some (returns { g with linked := g.linked.pop user } none)

def serve (w : World) (pc : Pc) (a : Answer) : Option (World × Answer) :=
  match pc, a with
  | _, .failed | .exchange _, .oauthToken _ | .owner _ _, .owner _ _ | .mint _ _ _, .minted _ _
  | .retire _ _, .retired => some (w, a)
  | _, _ => none

/-- One link for a Hub account: that of the user who just confirmed it. -/
def link (g : Memory) (user : String) (minted : Minted) : Memory :=
  let linked := List.filter (fun e => e.2.hubUser ≠ minted.hubUser) g.linked
  { g with linked := Dict.set linked user minted }

def resume (w : World) (g : Memory) (pc : Pc) (a : Answer) : Option Step :=
  match pc, a with
  | _, .failed => some (raises g)
  | .exchange user, .oauthToken token => some ⟨g, some (.owner user token), []⟩
  | .owner _ _, .owner none _ => some (returns g none)
  | .owner user token, .owner (some hubUser) confirmation =>
    let entry : Code := ⟨confirmation, token, hubUser, w.now + codeSeconds, 0⟩
    some ⟨{ g with codes := g.codes.set user entry }, none,
      [.gave user hubUser confirmation, .returned (some confirmation)]⟩
  | .mint user hubUser _, .minted token tokenId =>
    some ⟨g, some (.retire user ⟨token, tokenId, hubUser, w.now + tokenSeconds⟩), []⟩
  | .retire user minted, .retired =>
    some ⟨link g user minted, none, [.linked user minted.hubUser, .returned (some minted.hubUser)]⟩
  | _, _ => none

def env (_ : World) (g : Memory) : Move → Option (World × Memory)
  | .clock now => some (⟨now⟩, g)

def program : Program World Memory Pc Answer Call Event Answer Move := ⟨start, serve, resume, env⟩

abbrev St := State World Memory Pc Answer
abbrev Act := Action Call Answer Move

def initial (now : ℚ) : St := ⟨⟨now⟩, ⟨[], [], []⟩, []⟩

/-- What a thread may do up to its next suspension, from none for a call. -/
inductive Moved (w : World) (g : Memory) : Option Pc → Step → Prop
  | quiet {pc : Option Pc} (e : Event) (he : e = .raised ∨ ∃ x, e = .returned x) :
      Moved w g pc ⟨g, none, [e]⟩
  | issued (user state : String) :
      Moved w g none ⟨linkUrl w.now g user state, none, [.issued user state]⟩
  | took (state : String) (entry : Pending) (hget : (state, entry) ∈ g.pending)
      (hlt : w.now < entry.expiresAt) :
      Moved w g none ⟨{ g with pending := g.pending.pop state }, some (.exchange entry.user),
        [.took state entry.user]⟩
  | exchanged (user token : String) : Moved w g (some (.exchange user)) ⟨g, some (.owner user token), []⟩
  | gave (user token hubUser code : String) :
      Moved w g (some (.owner user token))
        ⟨{ g with codes := g.codes.set user ⟨code, token, hubUser, w.now + codeSeconds, 0⟩ },
          none, [.gave user hubUser code, .returned (some code)]⟩
  | expired (user : String) :
      Moved w g none ⟨{ g with codes := g.codes.pop user }, none, [.returned none]⟩
  | wrong (user : String) (entry : Code) (hget : (user, entry) ∈ g.codes)
      (hlt : entry.attempts + 1 < codeAttempts) :
      Moved w g none ⟨{ g with codes := g.codes.set user { entry with attempts := entry.attempts + 1 } },
        none, [.wrong user, .returned none]⟩
  | lastWrong (user : String) :
      Moved w g none ⟨{ g with codes := g.codes.pop user }, none, [.wrong user, .returned none]⟩
  | accepted (user : String) (entry : Code) (hget : (user, entry) ∈ g.codes)
      (hlt : w.now < entry.expiresAt) :
      Moved w g none ⟨{ g with codes := g.codes.pop user },
        some (.mint user entry.hubUser entry.oauthToken), [.accepted user entry.code]⟩
  | minted (user hubUser oauthToken : String) (m : Minted) (hm : m.hubUser = hubUser) :
      Moved w g (some (.mint user hubUser oauthToken)) ⟨g, some (.retire user m), []⟩
  | linked (user : String) (m : Minted) :
      Moved w g (some (.retire user m))
        ⟨link g user m, none, [.linked user m.hubUser, .returned (some m.hubUser)]⟩
  | forgot (user : String) :
      Moved w g none ⟨{ g with linked := g.linked.pop user }, none, [.returned none]⟩

variable {w : World} {g : Memory} {r : Step}

theorem start_moved {call : Call} (h : start w g call = some r) : Moved w g none r := by
  cases call with
  | linkUrl user state =>
    cases h
    exact .issued user state
  | login state code =>
    cases h
    unfold login
    split
    · exact .quiet _ (.inr ⟨none, rfl⟩)
    · rename_i entry he
      obtain ⟨hget, hlt⟩ := Option.filter_eq_some_iff.mp he
      exact .took state entry (Dict.mem_of_get? hget) (by simpa using hlt)
  | confirm user code =>
    simp only [start] at h
    split_ifs at h
    cases h
    unfold confirm
    split
    · exact .quiet _ (.inr ⟨none, rfl⟩)
    · rename_i entry hget
      have hmem := Dict.mem_of_get? hget
      split_ifs with hlate hcode
      · exact .expired user
      · dsimp only
        split_ifs with hlast
        · exact .lastWrong user
        · exact .wrong user entry hmem (not_le.mp hlast)
      · rw [← not_not.mp hcode]
        exact .accepted user entry hmem (not_le.mp hlate)
  | forget user =>
    cases h
    exact .forgot user

theorem resume_moved {pc : Pc} {a : Answer} (h : resume w g pc a = some r) : Moved w g (some pc) r := by
  unfold resume at h
  split at h
  · cases h
    exact .quiet _ (.inl rfl)
  · cases h
    exact .exchanged _ _
  · cases h
    exact .quiet _ (.inr ⟨none, rfl⟩)
  · cases h
    exact .gave _ _ _ _
  · cases h
    exact .minted _ _ _ _ rfl
  · cases h
    exact .linked _ _
  · cases h

abbrev Journal := List (Note World Event)

/-- `link_url` issued the user a state at that time. -/
def Issued (J : Journal) (user state : String) (at_ : ℚ) : Prop :=
  ∃ x ∈ J, x.event = .issued user state ∧ x.world.now = at_

/-- A login took up a state of the user's before it expired. -/
def Taken (J : Journal) (user : String) (login : ℕ) : Prop :=
  ∃ before x after state issued, J = before ++ x :: after ∧ x.thread = login ∧
    x.event = .took state user ∧ Issued before user state issued ∧
    x.world.now < issued + linkSeconds

def isWrong (user : String) (x : Note World Event) : Bool := x.event = .wrong user

/-- That login gave a code for the Hub account it was made with, and the user tried so many
wrong ones since. -/
def Given (J : Journal) (user hubUser code : String) (at_ : ℚ) (wrongs : ℕ) : Prop :=
  ∃ before x after, J = before ++ x :: after ∧ x.event = .gave user hubUser code ∧
    x.world.now = at_ ∧ Taken before user x.thread ∧ after.countP (isWrong user) = wrongs

/-- The user sent the code back in time, after few enough wrong ones. -/
def Confirmed (J : Journal) (user hubUser : String) : Prop :=
  ∃ before x after code given wrongs, J = before ++ x :: after ∧ x.event = .accepted user code ∧
    Given before user hubUser code given wrongs ∧ wrongs < codeAttempts ∧
    x.world.now < given + codeSeconds

variable {J K : Journal} {user hubUser code state : String}

theorem Issued.append {t : ℚ} (h : Issued J user state t) : Issued (J ++ K) user state t := by
  obtain ⟨x, hx, he⟩ := h
  exact ⟨x, List.mem_append_left _ hx, he⟩

theorem Taken.append {n : ℕ} (h : Taken J user n) : Taken (J ++ K) user n := by
  obtain ⟨before, x, after, state, issued, rfl, hx⟩ := h
  exact ⟨before, x, after ++ K, state, issued, by simp, hx⟩

theorem Given.append {t : ℚ} {k : ℕ} (h : Given J user hubUser code t k) :
    Given (J ++ K) user hubUser code t (k + K.countP (isWrong user)) := by
  obtain ⟨before, x, after, rfl, he, ht, htaken, hk⟩ := h
  refine ⟨before, x, after ++ K, by simp, he, ht, htaken, ?_⟩
  rw [List.countP_append, hk]

theorem Confirmed.append (h : Confirmed J user hubUser) : Confirmed (J ++ K) user hubUser := by
  obtain ⟨before, x, after, code, given, wrongs, rfl, hx⟩ := h
  exact ⟨before, x, after ++ K, code, given, wrongs, by simp, hx⟩

/-- What a thread has come by. -/
def Reached (J : Journal) (t : ℕ) : Pc → Prop
  | .exchange user | .owner user _ => Taken J user t
  | .mint user hubUser _ => Confirmed J user hubUser
  | .retire user m => Confirmed J user m.hubUser

theorem Reached.append {t : ℕ} {pc : Pc} (h : Reached J t pc) : Reached (J ++ K) t pc := by
  cases pc with
  | exchange user => exact Taken.append h
  | owner user token => exact Taken.append h
  | mint user hubUser token => exact Confirmed.append h
  | retire user m => exact Confirmed.append h

def PendingSound (J : Journal) (g : Memory) : Prop :=
  ∀ e ∈ g.pending, ∃ t, Issued J e.2.user e.1 t ∧ e.2.expiresAt = t + linkSeconds

def CodesSound (J : Journal) (g : Memory) : Prop :=
  ∀ e ∈ g.codes, ∃ t, Given J e.1 e.2.hubUser e.2.code t e.2.attempts ∧
    e.2.expiresAt = t + codeSeconds ∧ e.2.attempts < codeAttempts

def LinkedSound (J : Journal) (g : Memory) : Prop :=
  ∀ e ∈ g.linked, Confirmed J e.1 e.2.hubUser

/-- The notes of a thread's events. -/
def noted (w : World) (t : ℕ) (events : List Event) : Journal := events.map fun e => ⟨w, t, e⟩

variable {pc : Option Pc} {t : ℕ}

theorem pendingSound_moved (h : PendingSound J g) (hm : Moved w g pc r) :
    PendingSound (J ++ noted w t r.events) r.mem := by
  have hold {K : Journal} (e : String × Pending) (he : e ∈ g.pending) :
      ∃ t, Issued (J ++ K) e.2.user e.1 t ∧ e.2.expiresAt = t + linkSeconds := by
    obtain ⟨t, hi, hexp⟩ := h e he
    exact ⟨t, hi.append, hexp⟩
  cases hm with
  | issued user state =>
    intro e he
    rcases Dict.mem_set.mp he with rfl | ⟨he, _⟩
    · refine ⟨w.now, ⟨⟨w, t, .issued user state⟩, ?_, rfl, rfl⟩, rfl⟩
      simp [noted]
    · exact hold e (List.mem_filter.mp he).1
  | took state entry _ _ =>
    intro e he
    exact hold e (Dict.mem_pop.mp he).1
  | _ => exact fun e he => hold e he

/-- Notes without a wrong code leave the count as it is. -/
theorem Given.quiet {t : ℚ} {k : ℕ} (h : Given J user hubUser code t k)
    (hK : K.countP (isWrong user) = 0) : Given (J ++ K) user hubUser code t k := by
  have := h.append (K := K)
  rwa [hK, Nat.add_zero] at this

theorem codesSound_moved (h : CodesSound J g) (hpc : ∀ p, pc = some p → Reached J t p)
    (hm : Moved w g pc r) : CodesSound (J ++ noted w t r.events) r.mem := by
  have hold {K : Journal} (e : String × Code) (he : e ∈ g.codes)
      (hK : K.countP (isWrong e.1) = 0) : ∃ t, Given (J ++ K) e.1 e.2.hubUser e.2.code t e.2.attempts ∧
        e.2.expiresAt = t + codeSeconds ∧ e.2.attempts < codeAttempts := by
    obtain ⟨t, hg, hrest⟩ := h e he
    exact ⟨t, hg.quiet hK, hrest⟩
  cases hm with
  | quiet e he =>
    intro x hx
    refine hold x hx ?_
    rcases he with rfl | ⟨y, rfl⟩
    · simp [noted, isWrong]
    · simp [noted, isWrong]
  | gave user token hubUser code =>
    intro e he
    rcases Dict.mem_set.mp he with rfl | ⟨he, _⟩
    · refine ⟨w.now, ⟨J, ⟨w, t, .gave user hubUser code⟩, [⟨w, t, .returned (some code)⟩], ?_, rfl,
        rfl, hpc _ rfl, ?_⟩, rfl, Nat.succ_pos 2⟩
      · simp [noted]
      · simp [isWrong]
    · exact hold e he (by simp [noted, isWrong])
  | expired user =>
    intro e he
    exact hold e (Dict.mem_pop.mp he).1 (by simp [noted, isWrong])
  | accepted user entry _ _ =>
    intro e he
    exact hold e (Dict.mem_pop.mp he).1 (by simp [noted, isWrong])
  | lastWrong user =>
    intro e he
    obtain ⟨he, hne⟩ := Dict.mem_pop.mp he
    exact hold e he (by simp [noted, isWrong, Ne.symm hne])
  | wrong user entry hget hlt =>
    intro e he
    rcases Dict.mem_set.mp he with rfl | ⟨he, hne⟩
    · obtain ⟨t₀, hg, hexp, _⟩ := h _ hget
      refine ⟨t₀, ?_, hexp, hlt⟩
      have hcount : (noted w t [.wrong user, .returned none]).countP (isWrong user) = 1 := by
        simp [noted, isWrong]
      have happ := hg.append (K := noted w t [.wrong user, .returned none])
      rwa [hcount] at happ
    · exact hold e he (by simp [noted, isWrong, Ne.symm hne])
  | issued user state => exact fun e he => hold e he (by simp [noted, isWrong])
  | took state entry _ _ => exact fun e he => hold e he (by simp [noted, isWrong])
  | exchanged user token => exact fun e he => hold e he rfl
  | minted user hubUser token m _ => exact fun e he => hold e he rfl
  | linked user m => exact fun e he => hold e he (by simp [noted, isWrong])
  | forgot user => exact fun e he => hold e he (by simp [noted, isWrong])

theorem linkedSound_moved (h : LinkedSound J g) (hpc : ∀ p, pc = some p → Reached J t p)
    (hm : Moved w g pc r) : LinkedSound (J ++ noted w t r.events) r.mem := by
  cases hm with
  | linked user m =>
    intro e he
    rcases Dict.mem_set.mp he with rfl | ⟨he, _⟩
    · exact Confirmed.append (hpc _ rfl)
    · exact (h e (List.mem_filter.mp he).1).append
  | forgot user =>
    intro e he
    exact (h e (Dict.mem_pop.mp he).1).append
  | _ => exact fun e he => (h e he).append

theorem reached_moved (hp : PendingSound J g) (hc : CodesSound J g)
    (hpc : ∀ p, pc = some p → Reached J t p) (hm : Moved w g pc r) {next : Pc}
    (hn : r.next = some next) : Reached (J ++ noted w t r.events) t next := by
  cases hm with
  | took state entry hget hlt =>
    obtain rfl := Option.some.inj hn
    obtain ⟨t₀, hi, hexp⟩ := hp _ hget
    refine ⟨J, ⟨w, t, .took state entry.user⟩, [], state, t₀, rfl, rfl, rfl, hi, ?_⟩
    rw [← hexp]
    exact hlt
  | exchanged user token =>
    obtain rfl := Option.some.inj hn
    exact Taken.append (hpc _ rfl)
  | accepted user entry hget hlt =>
    obtain rfl := Option.some.inj hn
    obtain ⟨t₀, hg, hexp, hfew⟩ := hc _ hget
    refine ⟨J, ⟨w, t, .accepted user entry.code⟩, [], entry.code, t₀, entry.attempts, rfl, rfl, hg,
      hfew, ?_⟩
    rw [← hexp]
    exact hlt
  | minted user hubUser token m hm =>
    obtain rfl := Option.some.inj hn
    have hconf : Confirmed J user hubUser := hpc _ rfl
    rw [← hm] at hconf
    exact hconf.append
  | _ => cases hn

def OneEach (g : Memory) : Prop :=
  ∀ e ∈ g.linked, ∀ e' ∈ g.linked, e.2.hubUser = e'.2.hubUser → e.1 = e'.1

theorem oneEach_moved (h : OneEach g) (hm : Moved w g pc r) : OneEach r.mem := by
  cases hm with
  | linked user m =>
    have hother (e : String × Minted) (he : e ∈ (link g user m).linked) :
        e = (user, m) ∨ (e ∈ g.linked ∧ e.2.hubUser ≠ m.hubUser) := by
      rcases Dict.mem_set.mp he with rfl | ⟨he, _⟩
      · exact .inl rfl
      · obtain ⟨he, hne⟩ := List.mem_filter.mp he
        exact .inr ⟨he, by simpa using hne⟩
    intro e he e' he' heq
    rcases hother e he with rfl | ⟨he, hne⟩
    · rcases hother e' he' with rfl | ⟨_, hne'⟩
      · rfl
      · exact absurd heq.symm hne'
    · rcases hother e' he' with rfl | ⟨he', _⟩
      · exact absurd heq hne
      · exact h e he e' he' heq
  | forgot user =>
    intro e he e' he' heq
    exact h e (Dict.mem_pop.mp he).1 e' (Dict.mem_pop.mp he').1 heq
  | _ => exact h

/-- How often a state was issued, and how often a login took it up. -/
def timesIssued (J : Journal) (state : String) : ℕ :=
  J.countP fun x => match x.event with
    | .issued _ s => s = state
    | _ => false

def timesTaken (J : Journal) (state : String) : ℕ :=
  J.countP fun x => match x.event with
    | .took s _ => s = state
    | _ => false

/-- How often a code was given for a user, and how often it was accepted from them. -/
def timesGiven (J : Journal) (user code : String) : ℕ :=
  J.countP fun x => match x.event with
    | .gave u _ c => u = user && c = code
    | _ => false

def timesAccepted (J : Journal) (user code : String) : ℕ :=
  J.countP fun x => match x.event with
    | .accepted u c => u = user && c = code
    | _ => false

section counts
variable {κ β : Type} [DecidableEq κ]

theorem countP_pop_le (d : Dict κ β) (k : κ) (p : κ × β → Bool) :
    (d.pop k).countP p ≤ d.countP p :=
  List.Sublist.countP_le List.filter_sublist

theorem countP_set_le (d : Dict κ β) (k : κ) (v : β) (p : κ × β → Bool) :
    (d.set k v).countP p ≤ (d.pop k).countP p + if p (k, v) then 1 else 0 := by
  rw [Dict.set, List.countP_cons]

/-- An entry that is popped no longer counts. -/
theorem countP_pop_lt {d : Dict κ β} {k : κ} {v : β} (h : (k, v) ∈ d) {p : κ × β → Bool}
    (hp : p (k, v) = true) : (d.pop k).countP p < d.countP p := by
  induction d with
  | nil => cases h
  | cons e d ih =>
    have hle : List.countP p (Dict.pop d k) ≤ List.countP p d := countP_pop_le d k p
    by_cases hk : e.1 = k
    · have hpop : Dict.pop (e :: d) k = Dict.pop d k := by simp [Dict.pop, hk]
      rw [hpop, List.countP_cons]
      rcases List.mem_cons.mp h with rfl | h
      · rw [if_pos hp]
        omega
      · have := ih h
        omega
    · have hpop : Dict.pop (e :: d) k = e :: Dict.pop d k := by simp [Dict.pop, hk]
      have hmem : (k, v) ∈ d := by
        rcases List.mem_cons.mp h with rfl | h
        · exact absurd rfl hk
        · exact h
      have := ih hmem
      rw [hpop, List.countP_cons, List.countP_cons]
      omega

end counts

/-- A state that still waits is one that was issued and not taken up. -/
def StatesOnce (J : Journal) (g : Memory) : Prop :=
  ∀ state, timesTaken J state + g.pending.countP (fun e => e.1 = state) ≤ timesIssued J state

def CodesOnce (J : Journal) (g : Memory) : Prop :=
  ∀ user code, timesAccepted J user code +
    g.codes.countP (fun e => e.1 = user && e.2.code = code) ≤ timesGiven J user code

theorem statesOnce_moved (h : StatesOnce J g) (hm : Moved w g pc r) :
    StatesOnce (J ++ noted w t r.events) r.mem := by
  intro state
  have hst := h state
  simp only [timesTaken, timesIssued, List.countP_append] at hst ⊢
  cases hm with
  | quiet e he =>
    rcases he with rfl | ⟨x, rfl⟩
    · simpa [noted] using hst
    · simpa [noted] using hst
  | issued user s =>
    set kept := List.filter (fun e : String × Pending => e.2.user ≠ user && w.now < e.2.expiresAt)
      g.pending
    have hset := countP_set_le kept s ⟨user, w.now + linkSeconds⟩ (fun e => e.1 = state)
    have hpop := countP_pop_le kept s (fun e : String × Pending => e.1 = state)
    have hfilter : kept.countP (fun e => e.1 = state) ≤ g.pending.countP (fun e => e.1 = state) :=
      List.Sublist.countP_le List.filter_sublist
    have hmem : (linkUrl w.now g user s).pending = Dict.set kept s ⟨user, w.now + linkSeconds⟩ := rfl
    rw [hmem]
    by_cases hs : s = state
    · subst hs
      simp only [decide_true, if_true] at hset
      simp [noted]
      omega
    · simp only [hs, decide_false, Bool.false_eq_true, if_false] at hset
      simp [noted, hs]
      omega
  | took s entry hget _ =>
    have hle := countP_pop_le g.pending s (fun e : String × Pending => e.1 = state)
    by_cases hs : s = state
    · have hlt := countP_pop_lt hget (p := fun e => e.1 = state) (by simpa using hs)
      simp [noted, hs] at hlt ⊢
      omega
    · simp [noted, hs]
      omega
  | _ => simpa [noted, link] using hst

theorem codesOnce_moved (h : CodesOnce J g) (hm : Moved w g pc r) :
    CodesOnce (J ++ noted w t r.events) r.mem := by
  intro user code
  have hst := h user code
  simp only [timesAccepted, timesGiven, List.countP_append] at hst ⊢
  cases hm with
  | quiet e he =>
    rcases he with rfl | ⟨x, rfl⟩
    · simpa [noted] using hst
    · simpa [noted] using hst
  | gave u token hubUser c =>
    have hset := countP_set_le g.codes u ⟨c, token, hubUser, w.now + codeSeconds, 0⟩
      (fun e => e.1 = user && e.2.code = code)
    have hpop := countP_pop_le g.codes u (fun e : String × Code => e.1 = user && e.2.code = code)
    by_cases hu : u = user ∧ c = code
    · obtain ⟨rfl, rfl⟩ := hu
      simp only [decide_true, Bool.and_self, if_true] at hset
      simp [noted] at hset hpop ⊢
      omega
    · have hfalse : (decide (u = user) && decide (c = code)) = false := by simpa using hu
      simp only [hfalse, Bool.false_eq_true, if_false] at hset
      simp [noted, hfalse] at hset hpop ⊢
      omega
  | expired u =>
    have hpop := countP_pop_le g.codes u (fun e : String × Code => e.1 = user && e.2.code = code)
    simp [noted] at hpop ⊢
    omega
  | lastWrong u =>
    have hpop := countP_pop_le g.codes u (fun e : String × Code => e.1 = user && e.2.code = code)
    simp [noted] at hpop ⊢
    omega
  | wrong u entry hget _ =>
    have hset := countP_set_le g.codes u { entry with attempts := entry.attempts + 1 }
      (fun e => e.1 = user && e.2.code = code)
    have hpop := countP_pop_le g.codes u (fun e : String × Code => e.1 = user && e.2.code = code)
    by_cases hu : (u = user && entry.code = code) = true
    · have hlt := countP_pop_lt hget (p := fun e => e.1 = user && e.2.code = code) hu
      simp only [hu, if_true] at hset
      simp [noted] at hset hlt ⊢
      omega
    · simp only [hu, Bool.false_eq_true, if_false] at hset
      simp [noted] at hset hpop ⊢
      omega
  | accepted u entry hget _ =>
    have hpop := countP_pop_le g.codes u (fun e : String × Code => e.1 = user && e.2.code = code)
    by_cases hu : u = user ∧ entry.code = code
    · obtain ⟨rfl, rfl⟩ := hu
      have hlt := countP_pop_lt hget (p := fun e => e.1 = u && e.2.code = entry.code) (by simp)
      simp [noted] at hlt ⊢
      omega
    · have hfalse : (decide (u = user) && decide (entry.code = code)) = false := by simpa using hu
      simp [noted, hfalse] at hpop ⊢
      omega
  | _ => simpa [noted, linkUrl, link] using hst

/-- All of it together, in one state after what the journal says. -/
structure Sound (J : Journal) (s : St) : Prop where
  pending : PendingSound J s.mem
  codes : CodesSound J s.mem
  linked : LinkedSound J s.mem
  threads : ∀ t th, s.at t = some th → Reached J t th.pc
  oneEach : OneEach s.mem
  states : StatesOnce J s.mem
  used : CodesOnce J s.mem

theorem sound_initial (now : ℚ) : Sound [] (initial now) where
  pending e he := by cases he
  codes e he := by cases he
  linked e he := by cases he
  threads t th ht := by simp [initial, State.at] at ht
  oneEach e he := by cases he
  states state := by simp [timesTaken, timesIssued, initial]
  used user code := by simp [timesAccepted, timesGiven, initial]

theorem sound_moved {s s' : St} (h : Sound J s) (hpc : ∀ p, pc = some p → Reached J t p)
    (hm : Moved s.world s.mem pc r) (hmem : s'.mem = r.mem)
    (hat : ∀ j, s'.at j = if t = j then suspend r.next else s.at j) :
    Sound (J ++ noted s.world t r.events) s' where
  pending := hmem ▸ pendingSound_moved h.pending hm
  codes := hmem ▸ codesSound_moved h.codes hpc hm
  linked := hmem ▸ linkedSound_moved h.linked hpc hm
  threads j th hj := by
    rw [hat] at hj
    split_ifs at hj with htj
    · subst htj
      exact reached_moved h.pending h.codes hpc hm (suspend_eq_some hj).1
    · exact (h.threads j th hj).append
  oneEach := hmem ▸ oneEach_moved h.oneEach hm
  states := hmem ▸ statesOnce_moved h.states hm
  used := hmem ▸ codesOnce_moved h.used hm

theorem sound_step {s s' : St} {a : Act} (h : Sound J s) (hs : program.step s a = some s') :
    Sound (J ++ program.notes s a) s' := by
  cases a with
  | call i =>
    obtain ⟨r, hr, rfl⟩ := Program.step_call hs
    have hnotes : program.notes s (.call i) = noted s.world s.threads.length r.events := by
      simp [Program.notes, Action.mover, Program.emits, hr, noted]
    rw [hnotes]
    have hnone : ∀ p, (none : Option Pc) = some p → Reached J s.threads.length p := by
      intro p hp
      cases hp
    exact sound_moved h hnone (start_moved hr) rfl fun j => at_append s _ _ _ j
  | serve t c =>
    obtain ⟨pc, w, x, ht, hv, rfl⟩ := Program.step_serve hs
    have hnotes : program.notes s (.serve t c) = [] := rfl
    rw [hnotes, List.append_nil]
    refine ⟨h.pending, h.codes, h.linked, fun j th hj => ?_, h.oneEach, h.states, h.used⟩
    rw [at_set s _ _ t j _ (by simp [ht])] at hj
    split_ifs at hj with htj
    · obtain rfl := Option.some.inj hj
      have hreached : Reached J t pc := h.threads t _ ht
      rw [← htj]
      exact hreached
    · exact h.threads j th hj
  | resume t =>
    obtain ⟨pc, x, r, ht, hr, rfl⟩ := Program.step_resume hs
    have hnotes : program.notes s (.resume t) = noted s.world t r.events := by
      simp [Program.notes, Action.mover, Program.emits, ht, hr, noted]
    rw [hnotes]
    have hpc : ∀ p, some pc = some p → Reached J t p := by
      intro p hp
      obtain rfl := Option.some.inj hp
      exact h.threads t _ ht
    exact sound_moved h hpc (resume_moved hr) rfl fun j => at_set s _ _ t j _ (by simp [ht])
  | env e =>
    obtain ⟨w, g, he, rfl⟩ := Program.step_env hs
    have hnotes : program.notes s (.env e) = [] := rfl
    obtain ⟨now⟩ := e
    cases he
    rw [hnotes, List.append_nil]
    exact ⟨h.pending, h.codes, h.linked, h.threads, h.oneEach, h.states, h.used⟩

/-- In every run, who is linked confirmed it: the user was issued a state, a login took it up
before it expired, and the user sent back the code that this login gave for the Hub account,
in time and after fewer than `codeAttempts` wrong ones. No state is taken up more often than it
was issued and no code accepted more often than it was given, and a Hub account has one link. -/
theorem linked_of_run {now : ℚ} {acts : List Act} {s : St}
    (hr : program.run (initial now) acts = some s) :
    (∀ user m, s.mem.linked.get? user = some m →
      Confirmed (program.journal (initial now) acts) user m.hubUser) ∧
    (∀ state, timesTaken (program.journal (initial now) acts) state ≤
      timesIssued (program.journal (initial now) acts) state) ∧
    (∀ user code, timesAccepted (program.journal (initial now) acts) user code ≤
      timesGiven (program.journal (initial now) acts) user code) ∧
    ∀ user m user' m', s.mem.linked.get? user = some m → s.mem.linked.get? user' = some m' →
      m.hubUser = m'.hubUser → user = user' := by
  have h : Sound (program.journal (initial now) acts) s :=
    run_journal (sound_initial now) (fun J m a m' hi hs => sound_step hi hs) hr
  refine ⟨?_, ?_, ?_, ?_⟩
  · intro user m hm
    exact h.linked _ (Dict.mem_of_get? hm)
  · intro state
    exact le_trans (Nat.le_add_right _ _) (h.states state)
  · intro user code
    exact le_trans (Nat.le_add_right _ _) (h.used user code)
  · intro user m user' m' hm hm' heq
    exact h.oneEach _ (Dict.mem_of_get? hm) _ (Dict.mem_of_get? hm') heq

/-- A link that is made, taken up and confirmed after one wrong code. -/
def linkingRun : List Act :=
  [.call (.linkUrl "u1" "s"), .call (.login "s" "alice-login"), .serve 1 (.oauthToken "o"), .resume 1,
   .serve 1 (.owner (some "alice") "ABCDEFGH"), .resume 1, .call (.confirm "u1" "ABCDEFGJ"),
   .call (.confirm "u1" "ABCDEFGH"), .serve 3 (.minted "token" "1"), .resume 3, .serve 3 .retired,
   .resume 3]

theorem linked_of_run_alice : ∃ s m, program.run (initial 0) linkingRun = some s ∧
    s.mem.linked.get? "u1" = some m ∧ m.hubUser = "alice" ∧
    Confirmed (program.journal (initial 0) linkingRun) "u1" m.hubUser := by
  have hany : (program.run (initial 0) linkingRun).any (fun s =>
      (s.mem.linked.get? "u1").any fun m => m.hubUser = "alice") = true := by decide +kernel
  obtain ⟨s, hs, hlinked⟩ := (Option.any_eq_true _ _).mp hany
  obtain ⟨m, hm, halice⟩ := (Option.any_eq_true _ _).mp hlinked
  exact ⟨s, m, hs, hm, by simpa using halice, (linked_of_run hs).1 "u1" m hm⟩

end PurdueAF.MattermostLinking

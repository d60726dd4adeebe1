import PurdueAF.Dict
import PurdueAF.PyJson

/-!
# Restarting a session

`restart_af_session` of the agentic interface works out the options of the new session, stops
the one that runs and asks the Hub for another; `drop_stale_user_options` of the Hub then maps
what those options name onto the profile list of the day. `text` is Python's `str`.
-/
namespace PurdueAF.SessionRestarts
open Py

abbrev Options := Dict String Json

/-- A profile with the choices of each of its options. The name `profile` is taken by the slug. -/
structure Profile where
  slug : String
  isDefault : Bool
  options : Dict String (List Json)
  nodup : (options.map Prod.fst).Nodup
  reserved : options.get? "profile" = none

/-- What `_get_initialized_profile_list` gives of a list that is not empty: it marks one
profile as the default. -/
structure Profiles where
  list : List Profile
  marked : (list.find? Profile.isDefault).isSome

def Profiles.default (profiles : Profiles) : Profile :=
  (profiles.list.find? Profile.isDefault).get profiles.marked

variable (text : Json → String)

/-- `{str(key): key}` at the value's text; of keys with one text the last stays. -/
def choice (keys : List Json) (x : Json) : Option Json :=
  keys.reverse.find? fun key => text key = text x

/-- One round of the loop over a profile's options. -/
def dropChoice (options : Options) (option : String × List Json) : Options :=
  match options.get? option.1 with
  | none => options
  | some x =>
    if x.truthy then
      match choice text option.2 x with
      | some key => options.set option.1 key
      | none => options.pop option.1
    else options

def profileValue (options : Options) : Json := (options.get? "profile").getD .null

/-- The profile that the options name, if they name one of the list. -/
def named (profiles : Profiles) (options : Options) : Option Profile :=
  if (profileValue options).truthy then
    profiles.list.find? fun p => (profileValue options).isStr p.slug
  else none

def dropStaleUserOptions (profiles : Profiles) (options : Options) : Options :=
  match named profiles options with
  | some p => p.options.foldl (dropChoice text) options
  | none =>
    let p := profiles.default
    let options := if (profileValue options).truthy then options.set "profile" (.str p.slug) else options
    p.options.foldl (dropChoice text) options

/-- The profile that a session with these options runs on. -/
def profileOf (profiles : Profiles) (options : Options) : Profile :=
  (named profiles options).getD profiles.default

/-- The failures that the tools raise, by class. -/
inductive Failure
  | user | auth | upstream | service
  deriving DecidableEq, Repr

inductive Raised
  | failure (f : Failure)
  | exc (e : Exc)
  deriving DecidableEq, Repr

def raising {α : Type} : Except Exc α → Except Raised α
  | .ok x => .ok x
  | .error e => .error (.exc e)

/-- A profile as the tools list it: its slug and its display name. -/
abbrev Listed := String × String

/-- `str.lower` is given. -/
def findProfile (lower : String → String) (available : List Listed) (name : String) :
    Option Listed :=
  let key := lower (String.ofList (stripSpace name.toList))
  available.find? fun p => p.1 = key || lower p.2 = key

def namedProfile (lower : String → String) (available : List Listed) (name : String) :
    Except Raised Listed :=
  match findProfile lower available name with
  | some p => .ok p
  | none => .error (.failure (if available.isEmpty then .upstream else .user))

/-- `servers.get("", {}).get("user_options", {}) or {}`. -/
def priorOptions (servers : List (String × Json)) : Except Exc Json := do
  let options ← ((List.lookup "" servers).getD (.dict [])).getD "user_options" (.dict [])
  return options.or (.dict [])

/-- The options of the new session: `read` is what `_user_servers` gave or raised. The Hub keeps
options as an object, of which `dict` makes another. -/
def resolve (lower : String → String) (available : List Listed)
    (read : Except Failure (List (String × Json))) (profileName : Option String)
    (userOptions : Option Options) : Except Raised Options := do
  let prior ← match read with
    | .error .upstream => .ok (.dict [])
    | .error f => .error (.failure f)
    | .ok servers => raising (priorOptions servers)
  let overrides := userOptions.getD []
  let spawn ← if overrides.isEmpty then raising prior.spread else .ok overrides
  match profileName with
  | none | some "" => return spawn
  | some name => do
    let p ← namedProfile lower available name
    return Dict.set spawn "profile" (.str p.1)

/-- What the tool asks of the Hub that changes the session. -/
inductive Change
  | stop
  | spawn (options : Options)

/-- The changes of one restart: `stopped` is the status of the stop, `waited` how the wait for
a slow one ended. -/
def changes (resolved : Except Raised Options) (stopped : Except Failure ℤ)
    (waited : Except Failure Unit) : List Change :=
  match resolved with
  | .error _ => []
  | .ok options => .stop ::
    match stopped with
    | .error _ => []
    | .ok status =>
      match if status = 202 then waited else .ok () with
      | .error _ => []
      | .ok () => [.spawn options]

variable {text}

/-- What becomes of the value of an option with these keys. -/
def fixed (text : Json → String) (keys : List Json) (x : Json) : Option Json :=
  if x.truthy then choice text keys x else some x

theorem get?_dropChoice (options : Options) (option : String × List Json) (name : String) :
    (dropChoice text options option).get? name =
      if name = option.1 then (options.get? name).bind (fixed text option.2)
      else options.get? name := by
  unfold dropChoice
  cases hx : options.get? option.1 with
  | none =>
    split_ifs with h
    · rw [h, hx]
      rfl
    · rfl
  | some x =>
    dsimp only
    by_cases ht : x.truthy = true
    · rw [if_pos ht]
      cases hc : choice text option.2 x with
      | none =>
        rw [Dict.get?_pop]
        split_ifs with h
        · rw [h, hx, Option.bind_some, fixed, if_pos ht, hc]
        · rfl
      | some key =>
        rw [Dict.get?_set]
        split_ifs with h
        · rw [h, hx, Option.bind_some, fixed, if_pos ht, hc]
        · rfl
    · rw [if_neg ht]
      split_ifs with h
      · rw [h, hx, Option.bind_some, fixed, if_neg ht]
      · rfl

theorem get?_dropChoices (text : Json → String) {choices : Dict String (List Json)} (hn : (choices.map Prod.fst).Nodup)
    (options : Options) (name : String) :
    (choices.foldl (dropChoice text) options).get? name =
      match choices.get? name with
      | some keys => (options.get? name).bind (fixed text keys)
      | none => options.get? name := by
  induction choices generalizing options with
  | nil => rfl
  | cons option choices ih =>
    rw [List.map_cons, List.nodup_cons] at hn
    rw [List.foldl_cons, ih hn.2, get?_dropChoice, Dict.get?_cons]
    by_cases h : name = option.1
    · -- The names are distinct, so no later option touches it.
      have hlater : Dict.get? choices name = none := by
        rw [Dict.get?_eq_none_iff, h]
        exact hn.1
      rw [hlater, if_pos h, if_pos h]
    · rw [if_neg h, if_neg h]

/-- The value names one of these choices. -/
def IsChoice (text : Json → String) (keys : List Json) (x : Json) : Prop :=
  ∃ key ∈ keys, text key = text x

/-- The two values name one choice: a value that is a key of its own text is that key. -/
structure SameChoice (text : Json → String) (keys : List Json) (x y : Json) : Prop where
  named : text y = text x
  eq : x ∈ keys → (keys.map text).Nodup → y = x

theorem sameChoice_self (keys : List Json) (x : Json) : SameChoice text keys x x :=
  ⟨rfl, fun _ _ => rfl⟩

theorem choice_eq_some {keys : List Json} {x y : Json} (h : choice text keys x = some y) :
    y ∈ keys ∧ SameChoice text keys x y := by
  unfold choice at h
  have htext : text y = text x := by simpa using List.find?_some h
  have hmem : y ∈ keys := List.mem_reverse.mp (List.mem_of_find?_eq_some h)
  exact ⟨hmem, htext, fun hx hn => List.inj_on_of_nodup_map hn hmem hx htext⟩

theorem choice_ne_none {keys : List Json} {x : Json} (h : IsChoice text keys x) :
    ∃ y, choice text keys x = some y := by
  obtain ⟨key, hkey, htext⟩ := h
  unfold choice
  rw [← Option.isSome_iff_exists, List.find?_isSome]
  exact ⟨key, List.mem_reverse.mpr hkey, by simpa using htext⟩

/-- The value of this name is no choice of the profile any more. -/
def Stale (text : Json → String) (p : Profile) (name : String) (x : Json) : Prop :=
  ∃ keys, p.options.get? name = some keys ∧ x.truthy = true ∧ ¬IsChoice text keys x

/-- The new options run on the profile of before, and each of its choices that was not
overridden is what it was; where nothing was, the options are those of before that still exist. -/
structure Continues (text : Json → String) (profiles : Profiles) (p : Profile)
    (prior overrides new : Options) : Prop where
  profile : profileOf profiles new = p
  choices : ∀ name x keys, name ≠ "profile" → prior.get? name = some x →
    overrides.get? name = none → p.options.get? name = some keys → IsChoice text keys x →
    ∃ y, new.get? name = some y ∧ SameChoice text keys x y
  others : overrides = [] → ∀ name, p.options.get? name = none ∨ prior.get? name = none →
    new.get? name = prior.get? name
  stale : overrides = [] → ∀ name x, prior.get? name = some x → Stale text p name x →
    new.get? name = none
  same : overrides = [] → ∀ name x keys, prior.get? name = some x →
    p.options.get? name = some keys → ¬Stale text p name x →
    ∃ y, new.get? name = some y ∧ SameChoice text keys x y

variable {profiles : Profiles} {p : Profile} {prior overrides : Options}

theorem fixed_of_not_stale {name : String} {keys : List Json} {x : Json}
    (hkeys : p.options.get? name = some keys) (hs : ¬Stale text p name x) :
    ∃ y, fixed text keys x = some y ∧ SameChoice text keys x y := by
  unfold fixed
  by_cases ht : x.truthy = true
  · rw [if_pos ht]
    have hc : IsChoice text keys x := by
      by_contra hc
      exact hs ⟨keys, hkeys, ht, hc⟩
    obtain ⟨y, hy⟩ := choice_ne_none hc
    exact ⟨y, hy, (choice_eq_some hy).2⟩
  · rw [if_neg ht]
    exact ⟨x, rfl, sameChoice_self keys x⟩

theorem profileValue_congr {options new : Options}
    (h : new.get? "profile" = options.get? "profile") : profileValue new = profileValue options := by
  unfold profileValue
  rw [h]

theorem continues_prior (hnamed : named profiles prior = some p) :
    Continues text profiles p prior [] (dropStaleUserOptions text profiles prior) := by
  have hdrop : dropStaleUserOptions text profiles prior =
      p.options.foldl (dropChoice text) prior := by
    simp only [dropStaleUserOptions, hnamed]
  have hget (name : String) := get?_dropChoices text p.nodup prior name
  rw [hdrop]
  have hkept : ∀ name x keys, prior.get? name = some x → p.options.get? name = some keys →
      ¬Stale text p name x →
      ∃ y, (p.options.foldl (dropChoice text) prior).get? name = some y ∧
        SameChoice text keys x y := by
    intro name x keys hx hkeys hs
    rw [hget, hkeys, hx]
    exact fixed_of_not_stale hkeys hs
  constructor
  · have hprofile : (p.options.foldl (dropChoice text) prior).get? "profile" =
        prior.get? "profile" := by rw [hget, p.reserved]
    unfold profileOf named
    rw [profileValue_congr hprofile]
    change (named profiles prior).getD profiles.default = p
    rw [hnamed]
    rfl
  · intro name x keys _ hx _ hkeys hc
    refine hkept name x keys hx hkeys ?_
    rintro ⟨keys', hkeys', _, hnot⟩
    rw [hkeys] at hkeys'
    obtain rfl := Option.some.inj hkeys'
    exact hnot hc
  · intro _ name h
    rw [hget]
    rcases h with h | h
    · rw [h]
    · rw [h]
      cases p.options.get? name <;> rfl
  · rintro _ name x hx ⟨keys, hkeys, ht, hc⟩
    rw [hget, hkeys, hx]
    change fixed text keys x = none
    unfold fixed
    rw [if_pos ht]
    cases hchoice : choice text keys x with
    | none => rfl
    | some y =>
      obtain ⟨hmem, hsame⟩ := choice_eq_some hchoice
      exact absurd ⟨y, hmem, hsame.named⟩ hc
  · intro _ name x keys hx hkeys hs
    exact hkept name x keys hx hkeys hs

/-- Every prior option that is a choice of the profile is overridden. -/
def AllOverridden (text : Json → String) (p : Profile) (prior overrides : Options) : Prop :=
  ∀ name x keys, name ≠ "profile" → prior.get? name = some x → p.options.get? name = some keys →
    IsChoice text keys x → overrides.get? name ≠ none

/-- Options without a profile run on the default one, and have nothing that is not in them. -/
theorem continues_overrides (hne : overrides ≠ []) (hno : overrides.get? "profile" = none) :
    Continues text profiles p prior overrides (dropStaleUserOptions text profiles overrides) ↔
      p = profiles.default ∧ AllOverridden text p prior overrides := by
  have hvalue : profileValue overrides = .null := by
    unfold profileValue
    rw [hno]
    rfl
  have hnamed : named profiles overrides = none := by
    unfold named
    rw [hvalue]
    rfl
  have hdrop : dropStaleUserOptions text profiles overrides =
      profiles.default.options.foldl (dropChoice text) overrides := by
    simp only [dropStaleUserOptions, hnamed, hvalue]
    rfl
  have hget (name : String) :=
    get?_dropChoices text profiles.default.nodup overrides name
  have hprofile : profileOf profiles (profiles.default.options.foldl (dropChoice text) overrides) =
      profiles.default := by
    have hsame : (profiles.default.options.foldl (dropChoice text) overrides).get? "profile" =
        overrides.get? "profile" := by rw [hget, profiles.default.reserved]
    unfold profileOf named
    rw [profileValue_congr hsame]
    change (named profiles overrides).getD profiles.default = _
    rw [hnamed]
    rfl
  have hlost : ∀ name, overrides.get? name = none →
      (profiles.default.options.foldl (dropChoice text) overrides).get? name = none := by
    intro name hname
    rw [hget, hname]
    cases profiles.default.options.get? name <;> rfl
  rw [hdrop]
  constructor
  · intro h
    refine ⟨h.profile.symm.trans hprofile, ?_⟩
    intro name x keys hname hx hkeys hc hnone
    obtain ⟨y, hy, _⟩ := h.choices name x keys hname hx hnone hkeys hc
    rw [hlost name hnone] at hy
    cases hy
  · rintro ⟨rfl, hall⟩
    refine ⟨hprofile, ?_, fun h => absurd h hne, fun h => absurd h hne, fun h => absurd h hne⟩
    intro name x keys hname hx hnone hkeys hc
    exact absurd hnone (hall name x keys hname hx hkeys hc)

/-- What a restart without a profile name is to do: spawn with options that continue those the
Hub returned; and stop nothing where options cannot be worked out, whatever was asked for. -/
structure Restarts (text : Json → String) (lower : String → String) (profiles : Profiles)
    (p : Profile) (servers : List (String × Json)) (prior : Options)
    (userOptions : Option Options) : Prop where
  continues : ∀ available, ∃ spawn,
    resolve lower available (.ok servers) none userOptions = .ok spawn ∧
      (∀ status, changes (resolve lower available (.ok servers) none userOptions) (.ok status)
        (.ok ()) = [.stop, .spawn spawn]) ∧
      Continues text profiles p prior (userOptions.getD []) (dropStaleUserOptions text profiles spawn)
  stopsNothing : ∀ available read profileName options stopped waited e,
    resolve lower available read profileName options = .error e →
    .stop ∉ changes (resolve lower available read profileName options) stopped waited

theorem resolve_eq (lower : String → String) (available : List Listed)
    {servers server : List (String × Json)} (userOptions : Option Options)
    (hserver : List.lookup "" servers = some (.dict server))
    (hprior : Json.lookup server "user_options" = .dict prior) :
    resolve lower available (.ok servers) none userOptions =
      .ok (if userOptions.getD [] = [] then prior else userOptions.getD []) := by
  have hor : (Json.dict prior).or (.dict []) = .dict prior := by
    unfold Json.or
    split_ifs with h
    · rfl
    · have hnil : prior = [] := by simpa [Json.truthy] using h
      rw [hnil]
  have hread : priorOptions servers = .ok (.dict prior) := by
    have hget : (Json.dict server).getD "user_options" (.dict []) = .ok (.dict prior) := by
      unfold Json.lookup at hprior
      unfold Json.getD
      cases hl : List.lookup "user_options" server with
      | none =>
        rw [hl] at hprior
        cases hprior
      | some x =>
        rw [hl] at hprior
        obtain rfl : x = .dict prior := hprior
        dsimp only
        rw [hl]
        rfl
    simp only [priorOptions, hserver, Option.getD_some, hget, ok_bind, hor]
    rfl
  simp only [resolve, hread, raising, ok_bind]
  by_cases hempty : userOptions.getD [] = []
  · simp only [hempty, List.isEmpty_nil, if_true, Json.spread]
    rfl
  · have hnot : (userOptions.getD []).isEmpty = false := by simpa using hempty
    simp only [hnot, Bool.false_eq_true, if_false, hempty]
    rfl

/-- A restart keeps profile and choices exactly if no options are given, or if those given
override every choice of a session on the default profile. -/
theorem restarts_iff (text : Json → String) (lower : String → String)
    {servers server : List (String × Json)} {userOptions : Option Options}
    (hserver : List.lookup "" servers = some (.dict server))
    (hprior : Json.lookup server "user_options" = .dict prior)
    (hnamed : named profiles prior = some p)
    (hno : (userOptions.getD []).get? "profile" = none) :
    Restarts text lower profiles p servers prior userOptions ↔
      userOptions.getD [] = [] ∨
        p = profiles.default ∧ AllOverridden text p prior (userOptions.getD []) := by
  have hresolve (available : List Listed) :=
    resolve_eq lower available userOptions hserver hprior
  have hiff : Restarts text lower profiles p servers prior userOptions ↔
      Continues text profiles p prior (userOptions.getD []) (dropStaleUserOptions text profiles
        (if userOptions.getD [] = [] then prior else userOptions.getD [])) := by
    constructor
    · intro h
      obtain ⟨spawn, hspawn, _, hcont⟩ := h.continues []
      rw [hresolve] at hspawn
      obtain rfl := Except.ok.inj hspawn
      exact hcont
    · intro h
      constructor
      · intro available
        refine ⟨_, hresolve available, ?_, h⟩
        intro status
        rw [hresolve]
        simp [changes]
      · intro available read profileName options stopped waited e he
        rw [he]
        simp [changes]
  rw [hiff]
  by_cases hempty : userOptions.getD [] = []
  · rw [if_pos hempty, hempty]
    exact ⟨fun _ => .inl rfl, fun _ => continues_prior hnamed⟩
  · rw [if_neg hempty, continues_overrides hempty hno]
    constructor
    · exact .inr
    · rintro (h | h)
      · exact absurd h hempty
      · exact h

/-- The default profile, and one that has to be named. -/
def twoProfiles : Profiles where
  list := [⟨"purdue-af", true, [("0-cpu", [.int 1, .int 2])], by decide, by decide⟩,
    ⟨"pre-release", false, [("0-cpu", [.int 1, .int 2])], by decide, by decide⟩]
  marked := rfl

def preRelease : Profile :=
  ⟨"pre-release", false, [("0-cpu", [.int 1, .int 2])], by decide, by decide⟩

/-- `str` of strings, integers, booleans and `None`. -/
def scalarText : Json → String
  | .str s => s
  | .int n => toString n
  | .bool b => if b then "True" else "False"
  | _ => "None"

/-- A session on the profile that is not the default. -/
def onPreRelease : Options := [("profile", .str "pre-release"), ("0-cpu", .int 2)]

def serversOf (options : Options) : List (String × Json) :=
  [("", .dict [("ready", .bool true), ("user_options", .dict options)])]

/-- Restarted with other CPUs, it comes back on the default profile. -/
theorem not_restarts :
    ¬∀ text lower profiles p servers server prior (userOptions : Option Options),
      List.lookup "" servers = some (.dict server) →
      Json.lookup server "user_options" = .dict prior → named profiles prior = some p →
      (userOptions.getD []).get? "profile" = none →
      Restarts text lower profiles p servers prior userOptions := by
  intro h
  have hrestarts := h scalarText id twoProfiles preRelease (serversOf onPreRelease) _ onPreRelease
    (some [("0-cpu", .int 1)]) rfl rfl rfl rfl
  obtain ⟨spawn, hspawn, _, hcont⟩ := hrestarts.continues []
  obtain rfl : [("0-cpu", .int 1)] = spawn := Except.ok.inj hspawn
  have hslug := congrArg Profile.slug hcont.profile
  exact absurd hslug (by decide)

/-- Restarted as it is, it stays where it was. -/
theorem restarts_preRelease :
    named twoProfiles onPreRelease = some preRelease ∧
      Restarts scalarText id twoProfiles preRelease (serversOf onPreRelease) onPreRelease none :=
  ⟨rfl, Iff.mpr (restarts_iff scalarText id rfl rfl rfl rfl) (.inl rfl)⟩

end PurdueAF.SessionRestarts

import PurdueAF.PyJson
import PurdueAF.RayConfig

/-!
# Who comes from outside Purdue

The Hub knows the home domain of a login and puts its suffix into the username. The gateways
are given the username alone: the Ray gateway looks at its end, the Dask gateway anywhere in it.
Each then decides by its own answer whose UID the user's pods run as.
-/
namespace PurdueAF.HubNames
open Py Ray RayNaming

/-- What `str.lower` reads of the Unicode database. The characters of the suffixes are in lower
case there. -/
structure CaseData where
  lowerFull : Char → List Char
  cased : Char → Bool
  caseIgnorable : Char → Bool
  lowerFull_suffix : ∀ c ∈ "-cernfal".toList, lowerFull c = [c]

/-- The nearest character that is not case-ignorable is cased. -/
def nearCased (u : CaseData) (text : List Char) : Bool :=
  (text.dropWhile u.caseIgnorable).head?.any u.cased

/-- `text.lower()` after the characters of `before`, nearest first. A capital sigma that ends a
word has a lower case of its own. -/
def lowerFrom (u : CaseData) (before : List Char) : List Char → List Char
  | [] => []
  | c :: cs =>
    (if c = 'Σ' then [if nearCased u before && !nearCased u cs then 'ς' else 'σ']
      else u.lowerFull c) ++ lowerFrom u (c :: before) cs

def lowerCase (u : CaseData) (text : String) : String := .ofList (lowerFrom u [] text.toList)

/-- The keys of `SUFFIXES`. -/
inductive Domain
  | purdue | cern | fnal
  deriving DecidableEq, Repr

def Domain.suffix : Domain → String
  | .purdue => ""
  | .cern => "-cern"
  | .fnal => "-fnal"

/-- An eppn the AF knows, split at its first `@`. -/
structure Identity where
  login : String
  domain : Domain
  deriving DecidableEq, Repr

def Identity.username (i : Identity) : String := i.login ++ i.domain.suffix

/-- The username as the Hub normalizes it: the name in `auth_state` and at both gateways. -/
def hubName (u : CaseData) (i : Identity) : String := lowerCase u i.username

/-- The directory entry an account's ids are read from: the user's own, or a pooled one. -/
inductive Account
  | own (name : String)
  | pooled (afId : ℕ)
  deriving DecidableEq, Repr

/-- Where a pod's UID and GID come from. -/
inductive Ids
  | directory (account : Account)
  | declared (uid gid : ℤ)
  | environment (uid gid : ℤ)
  deriving DecidableEq, Repr

/-- The Hub's answer: `domain != "purdue.edu"`. -/
def hubExternal (i : Identity) : Bool := i.domain ≠ .purdue

def passthroughAuthStateHook (u : CaseData) (i : Identity) (afId : ℕ) : Except String Ids :=
  if hubExternal i then
    if 399 < afId then
      .error ("ran out of accounts for external users (AF ID " ++ toString afId ++ ")")
    else .ok (.directory (.pooled afId))
  else .ok (.directory (.own (hubName u i)))

def externalSuffixes : List String := ["-cern", "-fnal"]

/-- The Ray gateway's answer: `name.endswith(EXTERNAL_SUFFIXES)`. -/
def rayExternal (name : String) : Bool :=
  externalSuffixes.any fun s => s.toList <:+ name.toList

def pooledAccount (afId : ℕ) : Except Refused Account :=
  if 399 < afId then
    .error ⟨.permissionDenied, "There is no pooled account for AF user " ++ toString afId ++ "."⟩
  else .ok (.pooled afId)

/-- `Gateway.user_for` once the Hub has named the user: `accounts` are the workload accounts,
`pod` is the AF id in the name of the pod of the user's session. -/
def userFor (accounts : List String) (name : String) (pod : Option ℕ) : Except Refused Ids := do
  if ':' ∈ name.toList then
    throw ⟨.permissionDenied, name ++ " is no name a Ray cluster runs for."⟩
  if clusterName name ∈ accounts.map clusterName then
    throw ⟨.permissionDenied, name ++
      " is the name of a workload account: no Ray cluster runs for a Hub user of it."⟩
  if rayExternal name then
    match pod with
    | none => throw ⟨.failedPrecondition,
        "Start your AF session first: a Ray cluster runs as the user of a running session."⟩
    | some afId => return .directory (← pooledAccount afId)
  return .directory (.own name)

/-- The Dask gateway's answer. -/
def isExternal (name : String) : Bool :=
  "-cern".toList <:+: name.toList || "-fnal".toList <:+: name.toList

/-- What `options_handler` raises before it has the ids. -/
inductive Raised
  | valueError (text : String)
  | notAnInt (e : Exc)
  deriving DecidableEq, Repr

def accountUser : List Char := "account:".toList

/-- `cluster_options` and `options_handler` as far as the ids: `accounts` are the declared
workload accounts, `env` is the environment the client sends. -/
def optionsHandler (accounts : Dict String (ℤ × ℤ)) (name : String) (env : List (String × Json)) :
    Except Raised Ids :=
  if accountUser <+: name.toList then
    match accounts.get? (.ofList (name.toList.drop accountUser.length)) with
    | none => .error (.valueError "This workload account is not declared.")
    | some (uid, gid) => .ok (.declared uid gid)
  else if isExternal name then
    if env.isEmpty then
      .error (.valueError
        "'env' must be specified in new_cluster(), for example env=dict(os.environ)")
    else
      match env.lookup "NB_UID", env.lookup "NB_GID" with
      | some uid, some gid =>
        match uid.toInt, gid.toInt with
        | .ok uid, .ok gid => .ok (.environment uid gid)
        | .error e, _ => .error (.notAnInt e)
        | _, .error e => .error (.notAnInt e)
      | _, _ => .error (.valueError "NB_UID and NB_GID variables must exist in 'env'")
  else .ok (.directory (.own name))

/-- The Hub gives the user's pods a pooled account whenever it gives them any. -/
def Mapped (u : CaseData) (i : Identity) : Prop :=
  ∀ afId ids, passthroughAuthStateHook u i afId = .ok ids → ids = .directory (.pooled afId)

/-- The three answers about an identity are one, and ids from a pooled account or from the
client's environment are those of a user the Hub mapped. -/
structure Agree (u : CaseData) (i : Identity) : Prop where
  ray : rayExternal (hubName u i) = hubExternal i
  dask : isExternal (hubName u i) = hubExternal i
  pooled : ∀ accounts pod afId,
    userFor accounts (hubName u i) pod = .ok (.directory (.pooled afId)) → Mapped u i
  environment : ∀ accounts env uid gid,
    optionsHandler accounts (hubName u i) env = .ok (.environment uid gid) → Mapped u i

def Apart (u : CaseData) (i j : Identity) : Prop :=
  i.domain ≠ j.domain → hubName u i ≠ hubName u j

/-- A login at Purdue without one of the suffixes anywhere in its lower case. -/
def Plain (u : CaseData) (i : Identity) : Prop :=
  i.domain = .purdue →
    ¬"-cern".toList <:+: (lowerCase u i.login).toList ∧
    ¬"-fnal".toList <:+: (lowerCase u i.login).toList

theorem lowerFrom_suffix (u : CaseData) {s : List Char} (hs : ∀ c ∈ s, c ∈ "-cernfal".toList)
    (before : List Char) : lowerFrom u before s = s := by
  induction s generalizing before with
  | nil => rfl
  | cons c cs ih =>
    have hc := hs c (by simp)
    have hsigma : c ≠ 'Σ' := fun heq => absurd (heq ▸ hc) (by decide)
    rw [lowerFrom, if_neg hsigma, u.lowerFull_suffix c hc, ih fun d hd => hs d (by simp [hd])]
    rfl

theorem lowerFrom_append (u : CaseData) {s : List Char} (hs : ∀ c ∈ s, c ∈ "-cernfal".toList)
    (text before : List Char) : ∃ x, lowerFrom u before (text ++ s) = x ++ s := by
  induction text generalizing before with
  | nil => exact ⟨[], lowerFrom_suffix u hs before⟩
  | cons c cs ih =>
    obtain ⟨x, hx⟩ := ih (c :: before)
    rw [List.cons_append, lowerFrom, hx, ← List.append_assoc]
    exact ⟨_, rfl⟩

/-- The suffix of the domain is still there after the lower-casing. -/
theorem suffix_hubName (u : CaseData) (i : Identity) :
    i.domain.suffix.toList <:+ (hubName u i).toList := by
  have hs : ∀ c ∈ i.domain.suffix.toList, c ∈ "-cernfal".toList := by
    have hall : i.domain.suffix.toList.all (fun c => decide (c ∈ "-cernfal".toList)) = true := by
      cases i.domain <;> decide
    intro c hc
    exact of_decide_eq_true (List.all_eq_true.mp hall c hc)
  obtain ⟨x, hx⟩ := lowerFrom_append u hs i.login.toList []
  refine ⟨x, ?_⟩
  rw [hubName, lowerCase, Identity.username, String.toList_append, String.toList_ofList, hx]

theorem hubName_purdue (u : CaseData) {i : Identity} (h : i.domain = .purdue) :
    hubName u i = lowerCase u i.login := by
  rw [hubName, Identity.username, h, Domain.suffix, String.append_empty]

theorem isExternal_iff {name : String} : isExternal name = true ↔
    "-cern".toList <:+: name.toList ∨ "-fnal".toList <:+: name.toList :=
  Bool.or_eq_true_iff.trans (or_congr decide_eq_true_iff decide_eq_true_iff)

theorem rayExternal_iff {name : String} : rayExternal name = true ↔
    "-cern".toList <:+ name.toList ∨ "-fnal".toList <:+ name.toList := by
  simp only [rayExternal, externalSuffixes, List.any_cons, List.any_nil, Bool.or_false,
    Bool.or_eq_true, decide_eq_true_eq]

theorem isExternal_of_rayExternal {name : String} (h : rayExternal name = true) :
    isExternal name = true :=
  isExternal_iff.mpr ((rayExternal_iff.mp h).imp List.IsSuffix.isInfix List.IsSuffix.isInfix)

theorem rayExternal_of_ne_purdue (u : CaseData) {i : Identity} (h : i.domain ≠ .purdue) :
    rayExternal (hubName u i) = true := by
  have hs := suffix_hubName u i
  rw [rayExternal_iff]
  cases hd : i.domain with
  | purdue => exact absurd hd h
  | cern =>
    rw [hd] at hs
    exact .inl hs
  | fnal =>
    rw [hd] at hs
    exact .inr hs

theorem plain_iff (u : CaseData) {i : Identity} (h : i.domain = .purdue) :
    Plain u i ↔ isExternal (hubName u i) = false := by
  rw [Plain, ← Bool.not_eq_true, isExternal_iff, hubName_purdue u h, not_or]
  exact ⟨fun hp => hp h, fun hp _ => hp⟩

theorem mapped_of_ne_purdue (u : CaseData) {i : Identity} (h : i.domain ≠ .purdue) :
    Mapped u i := by
  intro afId ids hids
  have hext : hubExternal i = true := by simpa [hubExternal] using h
  rw [passthroughAuthStateHook, if_pos hext] at hids
  split_ifs at hids
  cases hids
  rfl

/-- Only a name with a suffix at its end gets a pooled account from the Ray gateway. -/
theorem rayExternal_of_pooled {accounts : List String} {name : String} {pod : Option ℕ} {afId : ℕ}
    (h : userFor accounts name pod = .ok (.directory (.pooled afId))) :
    rayExternal name = true := by
  by_contra hext
  unfold userFor at h
  rw [if_neg hext] at h
  split_ifs at h <;> cases h

/-- Only a name with a suffix in it has its ids read from the client's environment. -/
theorem isExternal_of_environment {accounts : Dict String (ℤ × ℤ)} {name : String}
    {env : List (String × Json)} {uid gid : ℤ}
    (h : optionsHandler accounts name env = .ok (.environment uid gid)) :
    isExternal name = true := by
  by_contra hext
  unfold optionsHandler at h
  rw [if_neg hext] at h
  split_ifs at h
  · cases hget : accounts.get? (.ofList (name.toList.drop accountUser.length)) with
    | none => simp [hget] at h
    | some ids => simp [hget] at h
  · cases h

theorem agree_iff (u : CaseData) (i : Identity) : Agree u i ↔ Plain u i := by
  by_cases hd : i.domain = .purdue
  · rw [plain_iff u hd]
    have hhub : hubExternal i = false := by simp [hubExternal, hd]
    constructor
    · intro h
      rw [h.dask, hhub]
    · intro h
      have hray : rayExternal (hubName u i) = false := by
        by_contra hne
        rw [isExternal_of_rayExternal (by simpa using hne)] at h
        cases h
      refine ⟨hray.trans hhub.symm, h.trans hhub.symm, ?_, ?_⟩
      · intro accounts pod afId hids
        rw [rayExternal_of_pooled hids] at hray
        cases hray
      · intro accounts env uid gid hids
        rw [isExternal_of_environment hids] at h
        cases h
  · have hhub : hubExternal i = true := by simpa [hubExternal] using hd
    have hray := rayExternal_of_ne_purdue u hd
    have hmapped := mapped_of_ne_purdue u hd
    refine iff_of_true ⟨hray.trans hhub.symm, ?_, fun _ _ _ _ => hmapped, fun _ _ _ _ _ => hmapped⟩
      fun h => absurd h hd
    exact (isExternal_of_rayExternal hray).trans hhub.symm

/-- Names of two domains outside Purdue end differently. -/
theorem domain_eq_of_suffixes {name : List Char} {d e : Domain} (hd : d ≠ .purdue)
    (he : e ≠ .purdue) (h : d.suffix.toList <:+ name) (h' : e.suffix.toList <:+ name) :
    d = e := by
  have hcern : Domain.cern.suffix.toList = ['-', 'c', 'e', 'r', 'n'] := by simp [Domain.suffix]
  have hfnal : Domain.fnal.suffix.toList = ['-', 'f', 'n', 'a', 'l'] := by simp [Domain.suffix]
  cases d with
  | purdue => exact absurd rfl hd
  | cern =>
    cases e with
    | purdue => exact absurd rfl he
    | cern => rfl
    | fnal =>
      rw [hcern] at h
      rw [hfnal] at h'
      exact absurd (List.suffix_of_suffix_length_le h h' (by decide)) (by decide)
  | fnal =>
    cases e with
    | purdue => exact absurd rfl he
    | cern =>
      rw [hfnal] at h
      rw [hcern] at h'
      exact absurd (List.suffix_of_suffix_length_le h h' (by decide)) (by decide)
    | fnal => rfl

theorem apart_of_plain (u : CaseData) {i j : Identity} (hi : Plain u i) (hj : Plain u j) :
    Apart u i j := by
  intro hne heq
  -- a name that ends in a suffix has it, so a plain one is not the same as one from outside
  have hmixed : ∀ {i j : Identity}, Plain u i → i.domain = .purdue → j.domain ≠ .purdue →
      hubName u i ≠ hubName u j := by
    intro i j hplain hp hq h
    have hext := isExternal_of_rayExternal (rayExternal_of_ne_purdue u hq)
    rw [← h, (plain_iff u hp).mp hplain] at hext
    cases hext
  by_cases hp : i.domain = .purdue
  · exact hmixed hi hp (fun h => hne (hp.trans h.symm)) heq
  by_cases hq : j.domain = .purdue
  · exact hmixed hj hq hp heq.symm
  exact hne (domain_eq_of_suffixes hp hq (heq ▸ suffix_hubName u i) (suffix_hubName u j))

/-- The three components agree about two identities, and tell them apart, just when neither is
a Purdue login that holds a suffix. -/
theorem agree_and_apart_iff (u : CaseData) (i j : Identity) :
    (Agree u i ∧ Agree u j ∧ Apart u i j) ↔ Plain u i ∧ Plain u j := by
  rw [agree_iff, agree_iff]
  exact ⟨fun h => ⟨h.1, h.2.1⟩, fun h => ⟨h.1, h.2, apart_of_plain u h.1 h.2⟩⟩

/-- The case data of the ASCII characters. -/
def asciiCase : CaseData where
  lowerFull c := [lowerAscii c]
  cased c := c.isAlpha
  caseIgnorable c := c.toNat ∈ [0x27, 0x2E, 0x3A, 0x5E, 0x60]
  lowerFull_suffix := by
    have hall : "-cernfal".toList.all (fun c => decide ([lowerAscii c] = [c])) = true := by decide
    intro c hc
    exact of_decide_eq_true (List.all_eq_true.mp hall c hc)

/-- With a suffix inside a Purdue login the gateways differ, and with one at its end the login
has the name of a user from outside. -/
theorem not_agree_and_apart_jane :
    ¬(Agree asciiCase ⟨"jane-cern-lab", .purdue⟩ ∧ Agree asciiCase ⟨"jane", .cern⟩ ∧
      Apart asciiCase ⟨"jane-cern-lab", .purdue⟩ ⟨"jane", .cern⟩) ∧
    ¬Apart asciiCase ⟨"jane-cern", .purdue⟩ ⟨"jane", .cern⟩ := by
  constructor
  · intro h
    exact absurd h.1.dask (by decide)
  · intro h
    exact h (by decide) (by decide)

end PurdueAF.HubNames

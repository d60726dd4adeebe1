import PurdueAF.Binary64
import PurdueAF.DefaultDict
import PurdueAF.RayNaming

/-!
# Workload accounts

Both gateways read the declarations of workload accounts, each with rules of its own: the Ray
gateway (`gateway.py`) makes an `Account` of a declaration, and the Dask gateway
(`values.yaml`) keeps the dictionary it read. A token is looked up by its hash.
-/
namespace PurdueAF.WorkloadAccounts
open RayNaming

/-- A code point of a Python `str`: a character, or a surrogate that stands alone. -/
inductive CodePoint
  | char (c : Char)
  | surrogate (n : Fin 0x800)
  deriving DecidableEq, Repr

abbrev Str := List CodePoint

def str (text : String) : Str := text.toList.map .char

/-- The bytes of a code point in `text.encode("utf-8", "surrogateescape")`: U+DC80 to U+DCFF
stand for bytes that were no UTF-8, and no other surrogate is encoded. -/
def encodePoint : CodePoint → Option (List UInt8)
  | .char c => some (String.utf8EncodeChar c)
  | .surrogate n => if 0x480 ≤ n.val ∧ n.val < 0x500 then some [UInt8.ofNat (n.val - 0x400)] else none

/-- None for a `UnicodeEncodeError`. -/
def encodeStr (token : Str) : Option (List UInt8) := (token.mapM encodePoint).map List.flatten

/-- What `yaml.safe_load` gives: `tagged` is any value that is no `str`, `int`, `list` or `dict`
and has no literal of its own, such as a date, a set or bytes. -/
inductive Yaml
  | null
  | bool (b : Bool)
  | int (n : ℤ)
  | float (x : Binary64.Value)
  | str (s : Str)
  | list (items : List Yaml)
  | dict (entries : List (Yaml × Yaml))
  | tagged

def Yaml.str? : Yaml → Option Str
  | .str s => some s
  | _ => none

/-- A dictionary's entries under strings; of one key the last. -/
def stated (entries : List (Yaml × Yaml)) : Dict Str Yaml :=
  Dict.ofPairs (entries.filterMap fun e => e.1.str?.map fun key => (key, e.2))

/-- `declared[key]`. -/
def field (declared : Yaml) (key : String) : Yaml :=
  match declared with
  | .dict entries => ((stated entries).get? (str key)).getD .null
  | _ => .null

def fieldStr (declared : Yaml) (key : String) : Str := ((field declared key).str?).getD []

def fieldInt (declared : Yaml) (key : String) : ℤ :=
  match field declared key with
  | .int n => n
  | _ => 0

/-- `isinstance(declared, dict)` and `set(declared)` is the set of the keys. -/
def hasKeys (keys : List String) : Yaml → Bool
  | .dict entries =>
    entries.all (fun e => e.1.str?.any fun key => (keys.map str).contains key) &&
      keys.all fun key => ((stated entries).get? (str key)).isSome
  | _ => false

def CodePoint.within (p : Char → Bool) : CodePoint → Bool
  | .char c => p c
  | .surrogate _ => false

/-- A full match of `[a-z0-9]([-a-z0-9]*[a-z0-9])?`. -/
def accountName : Str → Bool
  | [] => false
  | c :: cs => c.within isPlain && cs.all (·.within isLabel) && cs.getLast?.all (·.within isPlain)

/-- A full match of `[0-9a-f]{64}`. -/
def tokenSha256 (s : Str) : Bool :=
  s.length = 64 && s.all (·.within fun c => "0123456789abcdef".toList.contains c)

/-- Why a declaration is refused. -/
inductive Reason
  | keys | name | reservedName | uid | gid | tokenHash
  deriving DecidableEq, Repr

structure Rules where
  keys : List String
  accountName : Str → Bool
  accountNameMax : ℕ
  /-- From the first to below the second. -/
  accountIds : ℤ × ℤ
  reservedNames : List String
  reservedPrefixes : List String
  reservedSuffixes : List String
  tokenSha256 : Str → Bool

def Rules.named (rules : Rules) (declared : Yaml) : Bool :=
  (field declared "name").str?.any fun name =>
    name.length ≤ rules.accountNameMax && rules.accountName name

def Rules.reserved (rules : Rules) (name : Str) : Bool :=
  (rules.reservedNames.map str).contains name ||
    rules.reservedPrefixes.any (fun start => (str start).isPrefixOf name) ||
    rules.reservedSuffixes.any fun ending => (str ending).isSuffixOf name

/-- `type(value) is int`, which a `bool` is not, in the range. -/
def Rules.isId (rules : Rules) : Yaml → Bool
  | .int n => rules.accountIds.1 ≤ n && n < rules.accountIds.2
  | _ => false

/-- The first rule a declaration breaks. -/
def Rules.broken (rules : Rules) (declared : Yaml) : Option Reason :=
  if !hasKeys rules.keys declared then some .keys
  else if !rules.named declared then some .name
  else if rules.reserved (fieldStr declared "name") then some .reservedName
  else if !rules.isId (field declared "uid") then some .uid
  else if !rules.isId (field declared "gid") then some .gid
  else if !(field declared "tokenSha256").str?.any rules.tokenSha256 then some .tokenHash
  else none

/-- The account whose hash a token's digest is, the last of several. Hashes are ASCII, so
`hmac.compare_digest` compares. -/
def ownerOf {α : Type} (hash : α → Str) (valid : Dict Str α) (digest : Str) : Option α :=
  valid.foldl (fun owner e => if digest = hash e.2 then some e.2 else owner) none

def digestOf (token : Str) : Option Str :=
  (encodeStr token).map fun bytes => (Sha256.hexdigest bytes).map .char

structure Account where
  name : Str
  uid : ℤ
  gid : ℤ
  tokenSha256 : Str
  deriving DecidableEq, Repr

namespace RayGateway

def rules : Rules where
  keys := ["name", "uid", "gid", "tokenSha256"]
  accountName := WorkloadAccounts.accountName
  accountNameMax := maxClusterName - clusterStem.length
  accountIds := (1000, 2000)
  reservedNames := ["bin", "boot", "dev", "etc", "home", "lib", "lib32", "lib64", "libx32",
    "media", "mnt", "opt", "proc", "root", "run", "sbin", "srv", "sys", "tmp", "usr", "var",
    "work", "depot", "eos", "cvmfs", "af-shared-storage", "hub-db-dir", "jovyan",
    "dask-credentials", "log-volume"]
  reservedPrefixes := ["claim-"]
  reservedSuffixes := ["-cern", "-fnal"]
  tokenSha256 := WorkloadAccounts.tokenSha256

def checkedAccount (declared : Yaml) : Except Reason Account :=
  match rules.broken declared with
  | some reason => .error reason
  | none => .ok ⟨fieldStr declared "name", fieldInt declared "uid", fieldInt declared "gid",
      fieldStr declared "tokenSha256"⟩

/-- The valid declarations by name; none stands for a file that cannot be read. -/
def readAccounts (declarations : List (Option Yaml)) : Dict Str Account :=
  let found := declarations.filterMap fun d => d.bind fun y => (checkedAccount y).toOption
  Dict.unshared Account.name Account.tokenSha256 found

/-- None for a `UnicodeEncodeError`. -/
def tokenAccount (valid : Dict Str Account) (token : Str) : Option (Option Account) :=
  (digestOf token).map (ownerOf Account.tokenSha256 valid)

end RayGateway

namespace DaskGateway

def rules : Rules where
  keys := ["name", "uid", "gid", "tokenSha256"]
  accountName := WorkloadAccounts.accountName
  accountNameMax := 43
  accountIds := (1000, 2000)
  reservedNames := ["bin", "boot", "dev", "etc", "home", "lib", "lib32", "lib64", "libx32",
    "media", "mnt", "opt", "proc", "root", "run", "sbin", "srv", "sys", "tmp", "usr", "var",
    "work", "depot", "eos", "cvmfs", "af-shared-storage", "hub-db-dir", "jovyan",
    "dask-credentials", "log-volume"]
  reservedPrefixes := ["claim-"]
  reservedSuffixes := ["-cern", "-fnal"]
  tokenSha256 := WorkloadAccounts.tokenSha256

def checkedAccount (declared : Yaml) : Except Reason Yaml :=
  match rules.broken declared with
  | some reason => .error reason
  | none => .ok declared

def readAccounts (declarations : List (Option Yaml)) : Dict Str Yaml :=
  let found := declarations.filterMap fun d => d.bind fun y => (checkedAccount y).toOption
  Dict.unshared (fieldStr · "name") (fieldStr · "tokenSha256") found

def tokenAccount (valid : Dict Str Yaml) (token : Str) : Option (Option Yaml) :=
  (digestOf token).map (ownerOf (fieldStr · "tokenSha256") valid)

end DaskGateway

/-- The account a declaration states, as the Ray gateway holds it. -/
def accountOf (declared : Yaml) : Account :=
  ⟨fieldStr declared "name", fieldInt declared "uid", fieldInt declared "gid",
    fieldStr declared "tokenSha256"⟩

/-- The account of a declaration that keeps the rules. -/
def wellFormed (declaration : Option Yaml) : Option Account :=
  declaration.bind fun declared => (RayGateway.checkedAccount declared).toOption

theorem rules_agree : RayGateway.rules = DaskGateway.rules := rfl

theorem checkedAccount_toOption (declared : Yaml) :
    (RayGateway.checkedAccount declared).toOption =
      (DaskGateway.checkedAccount declared).toOption.map accountOf := by
  rw [RayGateway.checkedAccount, DaskGateway.checkedAccount, rules_agree]
  cases DaskGateway.rules.broken declared <;> rfl

/-- The Ray gateway holds the accounts the Dask gateway keeps the declarations of. -/
theorem readAccounts_agree (declarations : List (Option Yaml)) :
    RayGateway.readAccounts declarations =
      (DaskGateway.readAccounts declarations).map fun e => (e.1, accountOf e.2) := by
  have hfound : declarations.filterMap wellFormed = (declarations.filterMap fun d =>
      d.bind fun y => (DaskGateway.checkedAccount y).toOption).map accountOf := by
    rw [List.map_filterMap]
    refine List.filterMap_congr fun d _ => ?_
    cases d with
    | none => rfl
    | some y => exact checkedAccount_toOption y
  have hread : RayGateway.readAccounts declarations =
      Dict.unshared Account.name Account.tokenSha256 (declarations.filterMap wellFormed) := rfl
  rw [hread, hfound]
  exact (Dict.map_unshared accountOf _).symm

theorem get?_readAccounts {declarations : List (Option Yaml)} {name : Str} {a : Account} :
    (RayGateway.readAccounts declarations).get? name = some a ↔
      (∃ before d after, declarations = before ++ d :: after ∧ wellFormed d = some a ∧
        ∀ e ∈ before ++ after, ∀ b, wellFormed e = some b →
          b.name ≠ a.name ∧ b.tokenSha256 ≠ a.tokenSha256) ∧ a.name = name := by
  rw [← Dict.alone_filterMap]
  exact Dict.get?_unshared

theorem broken_eq_none {rules : Rules} {declared : Yaml} (h : rules.broken declared = none) :
    hasKeys rules.keys declared = true ∧ rules.named declared = true ∧
      rules.reserved (fieldStr declared "name") = false ∧
      rules.isId (field declared "uid") = true ∧ rules.isId (field declared "gid") = true ∧
      (field declared "tokenSha256").str?.any rules.tokenSha256 = true := by
  unfold Rules.broken at h
  split_ifs at h with hkeys hnamed hreserved huid hgid hhash
  simp only [Bool.not_eq_true', Bool.not_eq_false, Bool.not_eq_true] at *
  exact ⟨hkeys, hnamed, hreserved, huid, hgid, hhash⟩

theorem accountName_of_wellFormed {d : Option Yaml} {a : Account} (h : wellFormed d = some a) :
    a.name.length ≤ 43 ∧ accountName a.name = true := by
  obtain ⟨declared, rfl, hchecked⟩ := Option.bind_eq_some_iff.mp h
  unfold RayGateway.checkedAccount at hchecked
  cases hbroken : RayGateway.rules.broken declared with
  | some reason =>
    rw [hbroken] at hchecked
    cases hchecked
  | none =>
    rw [hbroken] at hchecked
    obtain rfl := Option.some.inj hchecked
    obtain ⟨-, hnamed, -⟩ := broken_eq_none hbroken
    obtain ⟨name, hname, hrules⟩ := (Option.any_eq_true _ _).mp hnamed
    obtain ⟨hlen, hmatch⟩ := Bool.and_eq_true_iff.mp hrules
    simp only [fieldStr, hname, Option.getD_some]
    exact ⟨of_decide_eq_true hlen, hmatch⟩

theorem exists_chars {p : Char → Bool} {s : Str} (h : s.all (·.within p) = true) :
    ∃ chars : List Char, s = chars.map .char ∧ chars.all p = true := by
  induction s with
  | nil => exact ⟨[], rfl, rfl⟩
  | cons c s ih =>
    rw [List.all_cons, Bool.and_eq_true] at h
    obtain ⟨chars, rfl, hchars⟩ := ih h.2
    cases c with
    | char c => exact ⟨c :: chars, rfl, by simpa [hchars, CodePoint.within] using h.1⟩
    | surrogate n => exact absurd h.1 (by simp [CodePoint.within])

/-- An account's name stays as it is in the name of its cluster. -/
theorem clusterName_of_accountName {s : Str} (hlen : s.length ≤ 43) (h : accountName s = true) :
    ∃ u : String, s = str u ∧ clusterName u = "ray-train-" ++ u := by
  cases s with
  | nil => simp [accountName] at h
  | cons c cs =>
    simp only [accountName, Bool.and_eq_true] at h
    obtain ⟨⟨hfirst, hrest⟩, hlast⟩ := h
    obtain ⟨chars, rfl, hlabel⟩ := exists_chars hrest
    obtain ⟨d, rfl, hplain⟩ : ∃ d, c = .char d ∧ isPlain d = true := by
      cases c with
      | char d => exact ⟨d, rfl, hfirst⟩
      | surrogate n => cases hfirst
    obtain ⟨e, hend, hplainEnd⟩ : ∃ e, (d :: chars).getLast? = some e ∧ isPlain e = true := by
      obtain rfl | ⟨front, e, rfl⟩ := List.eq_nil_or_concat chars
      · exact ⟨d, rfl, hplain⟩
      · rw [List.concat_eq_append] at hlast ⊢
        refine ⟨e, by rw [← List.cons_append, List.getLast?_concat], ?_⟩
        rw [List.map_append, List.map_singleton, List.getLast?_concat] at hlast
        exact hlast
    have hall : ∀ c ∈ d :: chars, isLabel c = true := by
      intro c hc
      rcases List.mem_cons.mp hc with rfl | hc
      · exact isLabel_of_isPlain hplain
      · exact List.all_eq_true.mp hlabel c hc
    have hkept : kept (d :: chars) = true :=
      kept_of_isLabel (by simpa using hlen) hall hend hplainEnd
    have hname : (String.ofList (d :: chars)).toList = d :: chars := String.toList_ofList
    refine ⟨String.ofList (d :: chars), by rw [str, hname]; rfl, ?_⟩
    rw [← hname] at hkept
    have hstem : String.ofList clusterStem = "ray-train-" := String.ofList_toList
    rw [clusterName_of_kept hkept, String.ofList_append, hstem, String.ofList_toList]

section Owner

variable {α : Type} {hash : α → Str}

theorem ownerOf_append (valid : Dict Str α) (e : Str × α) (digest : Str) :
    ownerOf hash (valid ++ [e]) digest =
      if digest = hash e.2 then some e.2 else ownerOf hash valid digest := by
  simp [ownerOf, List.foldl_append]

/-- Where no two accounts have one hash, a digest is of the account whose hash it is. -/
theorem ownerOf_eq_some {valid : Dict Str α} {digest : Str} {a : α}
    (hone : ∀ e ∈ valid, ∀ e' ∈ valid, hash e.2 = hash e'.2 → e.2 = e'.2) :
    ownerOf hash valid digest = some a ↔ (∃ e ∈ valid, e.2 = a) ∧ digest = hash a := by
  induction valid using List.reverseRecOn with
  | nil => simp [ownerOf]
  | append_singleton valid e ih =>
    rw [ownerOf_append]
    have hlast : e ∈ valid ++ [e] := by simp
    split_ifs with hdigest
    · constructor
      · intro h
        obtain rfl := Option.some.inj h
        exact ⟨⟨e, hlast, rfl⟩, hdigest⟩
      · rintro ⟨⟨e', he', rfl⟩, hdigest'⟩
        rw [hone e hlast e' he' (hdigest.symm.trans hdigest')]
    · rw [ih fun e he e' he' => hone e (by simp [he]) e' (by simp [he'])]
      constructor
      · rintro ⟨⟨e', he', rfl⟩, hdigest'⟩
        exact ⟨⟨e', by simp [he'], rfl⟩, hdigest'⟩
      · rintro ⟨⟨e', he', rfl⟩, hdigest'⟩
        rcases List.mem_append.mp he' with he' | he'
        · exact ⟨⟨e', he', rfl⟩, hdigest'⟩
        · rw [List.mem_singleton.mp he'] at hdigest'
          exact absurd hdigest' hdigest

theorem map_ownerOf {β : Type} (f : β → α) (valid : Dict Str β) (digest : Str) :
    (ownerOf (hash ∘ f) valid digest).map f =
      ownerOf hash (valid.map fun e => (e.1, f e.2)) digest := by
  induction valid using List.reverseRecOn with
  | nil => rfl
  | append_singleton valid e ih =>
    rw [ownerOf_append, List.map_append, List.map_singleton, ownerOf_append, ← ih]
    simp only [Function.comp_apply]
    split_ifs <;> rfl

end Owner

section Accounts

variable (declarations : List (Option Yaml))

theorem nodup_readAccounts : ((RayGateway.readAccounts declarations).map Prod.fst).Nodup :=
  Dict.nodup_unshared _ _ _

variable {declarations}

/-- Two accounts that were accepted share neither a name nor a hash. -/
theorem readAccounts_apart {m n : Str} {a b : Account}
    (ha : (RayGateway.readAccounts declarations).get? m = some a)
    (hb : (RayGateway.readAccounts declarations).get? n = some b)
    (h : a.name = b.name ∨ a.tokenSha256 = b.tokenSha256) : m = n ∧ a = b := by
  obtain ⟨halone, rfl⟩ := Dict.get?_unshared.mp ha
  obtain ⟨hother, rfl⟩ := Dict.get?_unshared.mp hb
  obtain rfl := hother.eq_of halone.mem h
  exact ⟨rfl, rfl⟩

theorem tokenAccount_eq_some {token : Str} {a : Account} :
    RayGateway.tokenAccount (RayGateway.readAccounts declarations) token = some (some a) ↔
      (∃ name, (RayGateway.readAccounts declarations).get? name = some a) ∧
        digestOf token = some a.tokenSha256 := by
  have hget {e : Str × Account} (he : e ∈ RayGateway.readAccounts declarations) :=
    Dict.get?_of_mem (nodup_readAccounts declarations) he
  have hone : ∀ e ∈ RayGateway.readAccounts declarations,
      ∀ e' ∈ RayGateway.readAccounts declarations,
        e.2.tokenSha256 = e'.2.tokenSha256 → e.2 = e'.2 := fun e he e' he' h =>
    (readAccounts_apart (hget he) (hget he') (.inr h)).2
  have hmem : (∃ e ∈ RayGateway.readAccounts declarations, e.2 = a) ↔
      ∃ name, (RayGateway.readAccounts declarations).get? name = some a := by
    constructor
    · rintro ⟨e, he, rfl⟩
      exact ⟨e.1, hget he⟩
    · rintro ⟨name, h⟩
      exact ⟨_, Dict.mem_of_get? h, rfl⟩
  rw [RayGateway.tokenAccount, Option.map_eq_some_iff, ← hmem]
  constructor
  · rintro ⟨digest, hdigest, howner⟩
    obtain ⟨hin, rfl⟩ := (ownerOf_eq_some hone).mp howner
    exact ⟨hin, hdigest⟩
  · rintro ⟨hin, hdigest⟩
    exact ⟨_, hdigest, (ownerOf_eq_some hone).mpr ⟨hin, rfl⟩⟩

theorem tokenAccount_agree (token : Str) :
    RayGateway.tokenAccount (RayGateway.readAccounts declarations) token =
      (DaskGateway.tokenAccount (DaskGateway.readAccounts declarations) token).map
        (Option.map accountOf) := by
  rw [RayGateway.tokenAccount, DaskGateway.tokenAccount, readAccounts_agree, Option.map_map]
  congr 1
  funext digest
  exact (map_ownerOf accountOf _ digest).symm

theorem clusterName_of_readAccounts {name : Str} {a : Account}
    (h : (RayGateway.readAccounts declarations).get? name = some a) :
    ∃ u : String, a.name = str u ∧ clusterName u = "ray-train-" ++ u := by
  obtain ⟨⟨_, d, _, -, hformed, -⟩, -⟩ := get?_readAccounts.mp h
  obtain ⟨hlen, hname⟩ := accountName_of_wellFormed hformed
  exact clusterName_of_accountName hlen hname

theorem get?_readAccounts_perm {others : List (Option Yaml)} (h : declarations.Perm others)
    (name : Str) :
    (RayGateway.readAccounts declarations).get? name =
      (RayGateway.readAccounts others).get? name ∧
    (DaskGateway.readAccounts declarations).get? name =
      (DaskGateway.readAccounts others).get? name :=
  ⟨Dict.get?_unshared_congr_perm (h.filterMap _) name,
    Dict.get?_unshared_congr_perm (h.filterMap _) name⟩

end Accounts

/-- Both gateways know the same accounts, whatever the order of the declarations: those that
keep the rules and share neither a name nor a hash with another that does. Each is found by the
token whose SHA-256 it states and by no other, and its cluster is named as it is. -/
theorem accounts_unambiguous (declarations : List (Option Yaml)) :
    RayGateway.readAccounts declarations =
      (DaskGateway.readAccounts declarations).map (fun e => (e.1, accountOf e.2)) ∧
    (∀ others, declarations.Perm others → ∀ name,
      (RayGateway.readAccounts declarations).get? name =
        (RayGateway.readAccounts others).get? name ∧
      (DaskGateway.readAccounts declarations).get? name =
        (DaskGateway.readAccounts others).get? name) ∧
    (∀ name a, (RayGateway.readAccounts declarations).get? name = some a ↔
      (∃ before d after, declarations = before ++ d :: after ∧ wellFormed d = some a ∧
        ∀ e ∈ before ++ after, ∀ b, wellFormed e = some b →
          b.name ≠ a.name ∧ b.tokenSha256 ≠ a.tokenSha256) ∧ a.name = name) ∧
    (∀ m n a b, (RayGateway.readAccounts declarations).get? m = some a →
      (RayGateway.readAccounts declarations).get? n = some b →
        a.name = b.name ∨ a.tokenSha256 = b.tokenSha256 → m = n ∧ a = b) ∧
    (∀ name a, (RayGateway.readAccounts declarations).get? name = some a →
      ∃ u : String, a.name = str u ∧ clusterName u = "ray-train-" ++ u) ∧
    (∀ token a,
      RayGateway.tokenAccount (RayGateway.readAccounts declarations) token = some (some a) ↔
        (∃ name, (RayGateway.readAccounts declarations).get? name = some a) ∧
          digestOf token = some a.tokenSha256) ∧
    ∀ token, RayGateway.tokenAccount (RayGateway.readAccounts declarations) token =
      (DaskGateway.tokenAccount (DaskGateway.readAccounts declarations) token).map
        (Option.map accountOf) :=
  ⟨readAccounts_agree declarations, fun _ h name => get?_readAccounts_perm h name,
    fun _ _ => get?_readAccounts, fun _ _ _ _ ha hb h => readAccounts_apart ha hb h,
    fun _ _ h => clusterName_of_readAccounts h, fun _ _ => tokenAccount_eq_some,
    fun token => tokenAccount_agree token⟩

def declared (name tokenSha256 : String) : Option Yaml := some <| .dict
  [(.str (str "name"), .str (str name)), (.str (str "uid"), .int 1001),
    (.str (str "gid"), .int 1002), (.str (str "tokenSha256"), .str (str tokenSha256))]

/-- One account of the token `abc`, two of one name, and one with the hash of the second. -/
def declaredTwice : List (Option Yaml) :=
  [none,
    declared "krab" "ba7816bf8f01cfea414140de5dae2223b00361a396177a9cb410ff61f20015ad",
    some .null,
    declared "atlas" "1111111111111111111111111111111111111111111111111111111111111111",
    declared "atlas" "2222222222222222222222222222222222222222222222222222222222222222",
    declared "cms" "2222222222222222222222222222222222222222222222222222222222222222"]

theorem accounts_unambiguous_krab :
    ∃ krab, RayGateway.tokenAccount (RayGateway.readAccounts declaredTwice) (str "abc") =
        some (some krab) ∧
      (RayGateway.readAccounts declaredTwice).map Prod.fst = [str "krab"] ∧
      ∃ u : String, krab.name = str u ∧ clusterName u = "ray-train-" ++ u := by
  obtain ⟨-, -, -, -, hcluster, htoken, -⟩ := accounts_unambiguous declaredTwice
  have hnames : (RayGateway.readAccounts declaredTwice).map Prod.fst = [str "krab"] := by
    decide +kernel
  have hread : ((RayGateway.readAccounts declaredTwice).get? (str "krab")).any
      (fun krab => digestOf (str "abc") = some krab.tokenSha256) = true := by decide +kernel
  obtain ⟨krab, hkrab, hdigest⟩ := (Option.any_eq_true _ _).mp hread
  exact ⟨krab, (htoken _ _).mpr ⟨⟨_, hkrab⟩, by simpa using hdigest⟩, hnames,
    hcluster _ _ hkrab⟩

end PurdueAF.WorkloadAccounts

import Mathlib.Tactic.Common
import PurdueAF.Sha256

/-!
# Names of Ray clusters and jobs

`clusterName` keeps a username that can be part of a Kubernetes name and hashes any
other into one. The two kinds of name share one space: a hashed name is itself a
username that would be kept.
-/
namespace PurdueAF.RayNaming

def maxClusterName : ℕ := 53

def isLower (c : Char) : Bool := 'a' ≤ c && c ≤ 'z'

def isDigit (c : Char) : Bool := '0' ≤ c && c ≤ '9'

/-- The class `[a-z0-9]`. -/
def isPlain (c : Char) : Bool := isLower c || isDigit c

/-- The class `[-a-z0-9]`. -/
def isLabel (c : Char) : Bool := c = '-' || isPlain c

/-- A full match of `[a-z]([-a-z0-9]*[a-z0-9])?`. -/
def dnsLabel : List Char → Bool
  | [] => false
  | c :: cs => isLower c && cs.all isLabel && (cs.getLast?.all isPlain)

/-- `str.lower` as far as `[a-z0-9]` can tell: besides the ASCII letters only the Kelvin
sign and the dotted capital I have an ASCII letter in their lower case, and no lower
case is empty. Every other character stays, as `slug` drops it either way. -/
def lower (c : Char) : List Char :=
  if 'A' ≤ c && c ≤ 'Z' then [Char.ofNat (c.toNat + 32)]
  else if c.toNat = 0x212A then ['k']
  else if c.toNat = 0x0130 then ['i', Char.ofNat 0x0307]
  else [c]

/-- `re.sub(r"[^a-z0-9]+", "-", text)`; `inRun` after a character already replaced. -/
def slug (inRun : Bool) : List Char → List Char
  | [] => []
  | c :: cs =>
    if isPlain c then c :: slug false cs
    else if inRun then slug true cs
    else '-' :: slug true cs

/-- `text.strip("-")`. -/
def strip (text : List Char) : List Char :=
  ((text.dropWhile (· = '-')).reverse.dropWhile (· = '-')).reverse

def encode (text : List Char) : List UInt8 := text.flatMap String.utf8EncodeChar

def stem (username : List Char) : List Char := strip (slug false (username.flatMap lower))

/-- The first eight digits of a username's hash. -/
def digest8 (username : List Char) : List Char := (Sha256.hexdigest (encode username)).take 8

def suffix (username : List Char) : List Char := "---".toList ++ digest8 username

def clusterStem : List Char := "ray-train-".toList

/-- Whether the username stays as it is in its cluster's name. -/
def kept (username : List Char) : Bool :=
  (clusterStem ++ username).length ≤ maxClusterName && dnsLabel (clusterStem ++ username)

def clusterName (username : String) : String :=
  let name := clusterStem ++ username.toList
  if name.length ≤ maxClusterName && dnsLabel name then String.ofList name
  else
    let cut := maxClusterName - (suffix username.toList).length
    String.ofList ((clusterStem ++ stem username.toList).take cut ++ suffix username.toList)

/-- The Service of a cluster's head, which `head_url` and `client_address` name. -/
def headService (cluster : String) : String := cluster ++ "-head-svc"

/-- A RayJob's name is made of the owner, the cluster and a key drawn at random. -/
def jobName (owner cluster key : String) : String :=
  String.ofList ("ray-job-".toList ++
    (Sha256.hexdigest (encode (owner.toList ++ '/' :: cluster.toList ++ '/' :: key.toList))).take 16)

/-- Whose a job on NRP is, without their name. -/
def ownerKey (cluster owner : String) : String :=
  String.ofList ((Sha256.hexdigest (encode (owner.toList ++ '/' :: cluster.toList))).take 32)

theorem digest8_length (u : List Char) : (digest8 u).length = 8 := by
  simp [digest8, Sha256.hexdigest_length]

theorem digest8_ne_nil (u : List Char) : digest8 u ≠ [] := by
  intro h
  have hlen := digest8_length u
  simp [h] at hlen

theorem suffix_length (u : List Char) : (suffix u).length = 11 := by
  simp [suffix, digest8_length]

theorem isPlain_of_hex {c : Char} (h : c ∈ "0123456789abcdef".toList) : isPlain c = true := by
  have hall : "0123456789abcdef".toList.all isPlain = true := by decide
  exact List.all_eq_true.mp hall c h

theorem isPlain_of_mem_digest8 {u : List Char} {c : Char} (h : c ∈ digest8 u) :
    isPlain c = true :=
  isPlain_of_hex (Sha256.hexdigest_mem (List.mem_of_mem_take h))

theorem isLabel_of_isPlain {c : Char} (h : isPlain c = true) : isLabel c = true := by
  simp [isLabel, h]

theorem isLabel_of_mem_slug {r : Bool} {text : List Char} {c : Char} (h : c ∈ slug r text) :
    isLabel c = true := by
  induction text generalizing r with
  | nil => simp [slug] at h
  | cons a text ih =>
    simp only [slug] at h
    split_ifs at h with hp hr
    · rcases List.mem_cons.mp h with rfl | h
      · exact isLabel_of_isPlain hp
      · exact ih h
    · exact ih h
    · rcases List.mem_cons.mp h with rfl | h
      · decide
      · exact ih h

theorem mem_of_mem_strip {text : List Char} {c : Char} (h : c ∈ strip text) : c ∈ text := by
  have h1 := List.mem_reverse.mp h
  have h2 := List.mem_reverse.mp ((List.dropWhile_sublist _).subset h1)
  exact (List.dropWhile_sublist _).subset h2

theorem isLabel_of_mem_stem {u : List Char} {c : Char} (h : c ∈ stem u) : isLabel c = true :=
  isLabel_of_mem_slug (mem_of_mem_strip h)

/-- What follows `ray-train-` in the name of a username that is not kept. -/
def hashed (username : List Char) : List Char := (stem username).take 32 ++ suffix username

theorem hashed_length_le (u : List Char) : (hashed u).length ≤ 43 := by
  simp only [hashed, List.length_append, List.length_take, suffix_length]
  omega

theorem isLabel_of_mem_hashed {u : List Char} {c : Char} (h : c ∈ hashed u) :
    isLabel c = true := by
  rcases List.mem_append.mp h with h | h
  · exact isLabel_of_mem_stem (List.mem_of_mem_take h)
  · rcases List.mem_append.mp h with h | h
    · have hall : "---".toList.all isLabel = true := by decide
      exact List.all_eq_true.mp hall c h
    · exact isLabel_of_isPlain (isPlain_of_mem_digest8 h)

theorem getLast?_hashed (u : List Char) : (hashed u).getLast? = (digest8 u).getLast? := by
  rw [hashed, suffix, ← List.append_assoc, List.getLast?_append,
    List.getLast?_eq_some_getLast (digest8_ne_nil u), Option.some_or]

/-- A username of at most 43 label characters, a plain one last, stays as it is. -/
theorem kept_of_isLabel {u : List Char} {c : Char} (hlen : u.length ≤ 43)
    (hall : ∀ c ∈ u, isLabel c = true) (hlast : u.getLast? = some c) (hplain : isPlain c = true) :
    kept u = true := by
  have hlab : dnsLabel (clusterStem ++ u) = true := by
    have hhead : "ay-train-".toList.all isLabel = true := by decide
    have happ : clusterStem ++ u = 'r' :: ("ay-train-".toList ++ u) := rfl
    rw [happ, dnsLabel, List.all_append, List.all_eq_true.mpr hall, hhead, List.getLast?_append,
      hlast]
    simp only [Option.some_or, Option.all_some, hplain]
    decide
  have hstem : clusterStem.length = 10 := by decide
  simp only [kept, hlab, List.length_append, hstem, maxClusterName, Bool.and_true,
    decide_eq_true_eq]
  omega

/-- A username spelled like a hashed name is one that stays as it is. -/
theorem kept_hashed (u : List Char) : kept (hashed u) = true := by
  obtain ⟨c, hc, hp⟩ : ∃ c, (hashed u).getLast? = some c ∧ isPlain c = true := by
    rw [getLast?_hashed, List.getLast?_eq_some_getLast (digest8_ne_nil u)]
    exact ⟨_, rfl, isPlain_of_mem_digest8 (List.getLast_mem _)⟩
  exact kept_of_isLabel (hashed_length_le u) (fun c hc => isLabel_of_mem_hashed hc) hc hp

theorem clusterName_of_kept {u : String} (h : kept u.toList = true) :
    clusterName u = String.ofList (clusterStem ++ u.toList) := by
  simp only [clusterName]
  exact if_pos h

theorem clusterName_of_not_kept {u : String} (h : kept u.toList = false) :
    clusterName u = String.ofList (clusterStem ++ hashed u.toList) := by
  have hne : ¬ ((clusterStem ++ u.toList).length ≤ maxClusterName &&
      dnsLabel (clusterStem ++ u.toList)) = true :=
    fun hk => Bool.noConfusion (h.symm.trans hk)
  have hstem : clusterStem.length = 10 := by decide
  have htake : (clusterStem ++ stem u.toList).take 42 =
      clusterStem ++ (stem u.toList).take 32 := by
    rw [List.take_append, List.take_of_length_le (by omega), hstem]
  simp only [clusterName, suffix_length]
  rw [if_neg hne, hashed, ← List.append_assoc]
  exact congrArg _ (congrArg (· ++ _) htake)

/-- Every username is kept or hashed into one that would be. -/
theorem toList_clusterName (u : String) :
    ∃ x, kept x = true ∧ (clusterName u).toList = clusterStem ++ x := by
  cases h : kept u.toList with
  | true => exact ⟨u.toList, h, by rw [clusterName_of_kept h, String.toList_ofList]⟩
  | false =>
    exact ⟨hashed u.toList, kept_hashed _, by rw [clusterName_of_not_kept h, String.toList_ofList]⟩

/-- A label goes on with label characters to another, as long as the last one is plain. -/
theorem dnsLabel_append {label more : List Char} {c : Char} (h : dnsLabel label = true)
    (hmore : more.all isLabel = true) (hlast : more.getLast? = some c) (hplain : isPlain c = true) :
    dnsLabel (label ++ more) = true := by
  cases label with
  | nil => cases h
  | cons a label =>
    simp only [dnsLabel, Bool.and_eq_true] at h
    simp only [List.cons_append, dnsLabel, List.all_append, List.getLast?_append, h.1.1, h.1.2, hmore,
      hlast, Option.some_or, Option.all_some, hplain, Bool.and_self]

/-- Every user's cluster has a name that Kubernetes takes, and so has its head's Service. -/
theorem clusterName_valid (u : String) :
    (clusterName u).length ≤ maxClusterName ∧ dnsLabel (clusterName u).toList = true ∧
      clusterStem <+: (clusterName u).toList ∧
      (headService (clusterName u)).length ≤ 63 ∧
      dnsLabel (headService (clusterName u)).toList = true := by
  obtain ⟨x, hx, hname⟩ := toList_clusterName u
  simp only [kept, Bool.and_eq_true, decide_eq_true_eq] at hx
  obtain ⟨hlength, hlabel⟩ := hx
  rw [← hname] at hlength hlabel
  have hlen : (clusterName u).length ≤ maxClusterName := by rwa [String.length_toList] at hlength
  refine ⟨hlen, hlabel, ⟨x, hname.symm⟩, ?_, ?_⟩
  · have hservice : (headService (clusterName u)).length = (clusterName u).length + 9 := by
      rw [headService, String.length_append]
      rfl
    rw [maxClusterName] at hlen
    omega
  · rw [headService, String.toList_append]
    exact dnsLabel_append hlabel (c := 'c') (by decide) (by decide) (by decide)

theorem clusterName_eq_iff {u v : String} :
    clusterName u = clusterName v ↔
      (if kept u.toList then u.toList else hashed u.toList) =
        (if kept v.toList then v.toList else hashed v.toList) := by
  have hall : ∀ w : String, clusterName w =
      String.ofList (clusterStem ++ if kept w.toList then w.toList else hashed w.toList) := by
    intro w
    cases hw : kept w.toList with
    | true => simpa using clusterName_of_kept hw
    | false => simpa using clusterName_of_not_kept hw
  rw [hall u, hall v, String.ofList_inj, List.append_cancel_left_eq]

theorem toList_jobName (owner cluster key : String) :
    ∃ x, (jobName owner cluster key).toList = "ray-job-".toList ++ x :=
  ⟨_, String.toList_ofList⟩

/-- No user's own cluster is named like a RayJob, or like what KubeRay names after one. -/
theorem clusterName_ne_jobName (u owner cluster key more : String) :
    clusterName u ≠ jobName owner cluster key ++ more := by
  obtain ⟨x, -, hx⟩ := toList_clusterName u
  obtain ⟨y, hy⟩ := toList_jobName owner cluster key
  intro h
  have hl : (clusterStem ++ x).take 5 = ("ray-job-".toList ++ (y ++ more.toList)).take 5 := by
    rw [← hx, h, String.toList_append, hy, List.append_assoc]
  rw [List.take_append_of_le_length (by decide), List.take_append_of_le_length (by decide)] at hl
  exact absurd hl (by decide)

/-- The last eight characters of a hashed name tell its username. -/
theorem digest8_of_hashed_eq {u v : List Char} (h : hashed u = hashed v) :
    digest8 u = digest8 v := by
  have hr : ∀ w : List Char, (hashed w).reverse.take 8 = (digest8 w).reverse := by
    intro w
    simp only [hashed, suffix, List.reverse_append, List.append_assoc]
    rw [List.take_append_of_le_length (by simp [digest8_length])]
    exact List.take_of_length_le (by simp [digest8_length])
  have := (hr u).symm.trans ((congrArg (fun x => x.reverse.take 8) h).trans (hr v))
  exact List.reverse_inj.mp this

/-- Whether the username `u` is spelled as the name `v` is hashed into. -/
def spelledAs (u v : String) : Bool := !kept v.toList && u.toList = hashed v.toList

theorem kept_of_spelledAs {u v : String} (h : spelledAs u v = true) : kept u.toList = true := by
  simp only [spelledAs, Bool.and_eq_true, decide_eq_true_eq] at h
  rw [h.2]
  exact kept_hashed v.toList

/-- Two usernames with hashes of their own share a cluster name exactly when one of them
is spelled as the other's hashed name, which `DNS_LABEL` lets through unhashed. -/
theorem clusterName_ne_iff (u v : String) (huv : u ≠ v)
    (hinj : digest8 u.toList = digest8 v.toList → u = v) :
    clusterName u ≠ clusterName v ↔ spelledAs u v = false ∧ spelledAs v u = false := by
  have hlist : u.toList ≠ v.toList := fun h => huv (String.toList_injective h)
  have hkept : ∀ {x y : String}, kept x.toList = false → spelledAs x y = false := by
    intro x y hx
    cases h : spelledAs x y with
    | false => rfl
    | true => exact absurd (kept_of_spelledAs h) (by simp [hx])
  rw [Ne, clusterName_eq_iff]
  cases hu : kept u.toList with
  | true =>
    cases hv : kept v.toList with
    | true => simp [spelledAs, hu, hv, hlist]
    | false =>
      rw [hkept hv]
      simp [spelledAs, hv]
  | false =>
    cases hv : kept v.toList with
    | true =>
      rw [hkept hu]
      simp [spelledAs, hu, @eq_comm _ v.toList]
    | false =>
      have hne : hashed u.toList ≠ hashed v.toList :=
        fun h => huv (hinj (digest8_of_hashed_eq h))
      simp [hkept hu, hkept hv, hne]

theorem clusterName_ne_iff_user : clusterName "user-a" ≠ clusterName "a_b" ↔
    spelledAs "user-a" "a_b" = false ∧ spelledAs "a_b" "user-a" = false :=
  clusterName_ne_iff "user-a" "a_b" (by decide) (fun h => absurd h (by decide +kernel))

theorem clusterName_not_injective :
    ¬ ∀ u v : String, u ≠ v → (digest8 u.toList = digest8 v.toList → u = v) →
      clusterName u ≠ clusterName v := by
  intro h
  exact h "a_b" "a-b---648fa9b3" (by decide) (fun h => absurd h (by decide +kernel))
    (by decide +kernel)

end PurdueAF.RayNaming

import PurdueAF.PromqlScope
import PurdueAF.Re2
import PurdueAF.RayNaming
import Mathlib.Data.Finset.Sort
import Mathlib.Data.String.Basic

/-!
# The matchers of a caller's queries

`promql_scope.py` writes one regular expression for each label that may name a person or an
object of theirs: it matches what names nobody, what is shared, and what the caller owns. A
trie of the users' prefixes is turned into an expression for what starts with none of them.
-/
namespace PurdueAF.PromqlMatchers
open Re2 PromqlScope

/-- The characters that `re.escape` escapes. -/
def isSpecial (c : Char) : Bool := "()[]\x7b\x7d?*+-|^$\\.&~# \t\n\r\x0b\x0c".toList.contains c

def escapeChar (c : Char) : List Char := if isSpecial c then ['\\', c] else [c]

/-- `re.escape`. -/
def escape (text : List Char) : List Char := text.flatMap escapeChar

/-- `_class` of characters in their order. -/
def classOf (chars : List Char) : List Char :=
  chars.flatMap fun c => if "\\]^-[".toList.contains c then ['\\', c] else [c]

/-- A node of the trie: its characters in their order, each with whether a prefix ends there
and the node below. -/
inductive Trie
  | nil
  | cons (c : Char) (ends : Bool) (child next : Trie)
  deriving DecidableEq

namespace Trie

def single : List Char → Trie
  | [] => .nil
  | c :: cs => .cons c cs.isEmpty (single cs) .nil

def insert : Trie → List Char → Trie
  | t, [] => t
  | .nil, c :: cs => single (c :: cs)
  | .cons d ends child next, c :: cs =>
    if c = d then .cons d (ends || cs.isEmpty) (child.insert cs) next
    else if c < d then .cons c cs.isEmpty (single cs) (.cons d ends child next)
    else .cons d ends child (next.insert (c :: cs))

def chars : Trie → List Char
  | .nil => []
  | .cons c _ _ next => c :: next.chars

/-- `walk`, of a node's characters and the parts below them. -/
def group (chars : List Char) (branches : List (List Char)) : List Char :=
  "(?:".toList ++
    ['|'].intercalate ([] :: ("[^".toList ++ classOf chars ++ [']'] ++ ['.', '*']) :: branches) ++ [')']

/-- The parts for the characters where no prefix ends. -/
def branches : Trie → List (List Char)
  | .nil => []
  | .cons c ends child next =>
    if ends then next.branches
    else (escapeChar c ++ group child.chars child.branches) :: next.branches

def walk (t : Trie) : List Char := group t.chars t.branches

end Trie

/-- An expression for the texts that start with none of the prefixes. -/
def withoutPrefixes (prefixes : List (List Char)) : List Char :=
  (prefixes.foldl Trie.insert .nil).walk

theorem reads_escapeChar (c : Char) : Reads (escapeChar c) [.lit c] := by
  unfold escapeChar
  split_ifs with h
  · apply Reads.escaped
    have hall : "()[]\x7b\x7d?*+-|^$\\.&~# \t\n\r\x0b\x0c".toList.all isPunct = true := by decide
    exact List.all_eq_true.mp hall c (List.contains_iff_mem.mp h)
  · apply Reads.lit
    rw [Bool.eq_false_iff]
    intro hm
    have hall : "\\.+*?()|[]\x7b\x7d^$".toList.all isSpecial = true := by decide
    exact h (List.all_eq_true.mp hall c (List.contains_iff_mem.mp hm))

theorem reads_escape (text : List Char) : Reads (escape text) (text.map .lit) := by
  induction text with
  | nil => exact .nil
  | cons c text ih => exact (reads_escapeChar c).append ih

theorem classReads_classOf (chars : List Char) : ClassReads (classOf chars) chars := by
  induction chars with
  | nil => exact .nil
  | cons c chars ih =>
    simp only [classOf, List.flatMap_cons]
    split_ifs with h
    · have hall : "\\]^-[".toList.all isPunct = true := by decide
      exact .escaped (List.all_eq_true.mp hall c (List.contains_iff_mem.mp h)) ih
    · refine .plain ?_ ih
      intro hc
      have hall : ['\\', ']', '-', '[', '^'].all ("\\]^-[".toList.contains ·) = true := by decide
      exact h (List.all_eq_true.mp hall c hc)

namespace Trie

/-- Characters in their order, and something below each where no prefix ends. -/
def Valid : Trie → Prop
  | .nil => True
  | .cons c ends child next =>
    (∀ d ∈ next.chars, c < d) ∧ (ends = false → child ≠ .nil) ∧ child.Valid ∧ next.Valid

/-- Whether a word is one of the prefixes put in. -/
def has : Trie → List Char → Bool
  | .nil, _ | .cons _ _ _ _, [] => false
  | .cons d ends child next, c :: cs =>
    if c = d then (ends && cs.isEmpty) || child.has cs else next.has (c :: cs)

def find : Trie → Char → Option (Bool × Trie)
  | .nil, _ => none
  | .cons d ends child next, c => if c = d then some (ends, child) else next.find c

theorem has_nil (t : Trie) : t.has [] = false := by
  cases t <;> rfl

theorem has_cons (t : Trie) (c : Char) (cs : List Char) :
    t.has (c :: cs) = (t.find c).any fun x => (x.1 && cs.isEmpty) || x.2.has cs := by
  induction t with
  | nil => rfl
  | cons d ends child next _ ih =>
    simp only [has, find]
    split_ifs with h
    · rfl
    · exact ih

theorem mem_chars (t : Trie) (c : Char) : c ∈ t.chars ↔ (t.find c).isSome = true := by
  induction t with
  | nil => simp [chars, find]
  | cons d ends child next _ ih =>
    simp only [chars, find, List.mem_cons]
    split_ifs with h
    · simp [h]
    · simp [h, ih]

theorem mem_chars_of_has {t : Trie} {c : Char} {cs : List Char} (h : t.has (c :: cs) = true) :
    c ∈ t.chars := by
  rw [has_cons] at h
  rw [mem_chars]
  cases hf : t.find c with
  | none => simp [hf] at h
  | some x => rfl

theorem Valid.find {t : Trie} (h : t.Valid) {c : Char} {ends : Bool} {u : Trie}
    (hf : t.find c = some (ends, u)) : u.Valid ∧ (ends = false → u ≠ .nil) := by
  induction t with
  | nil => cases hf
  | cons d e child next _ ih =>
    simp only [Trie.find] at hf
    split_ifs at hf
    · obtain ⟨rfl, rfl⟩ := Prod.mk.inj (Option.some.inj hf)
      exact ⟨h.2.2.1, h.2.1⟩
    · exact ih h.2.2.2 hf

theorem mem_chars_insert {t : Trie} {p : List Char} {c : Char} (h : c ∈ (t.insert p).chars) :
    c ∈ t.chars ∨ p.head? = some c := by
  induction t with
  | nil =>
    cases p with
    | nil => exact .inl h
    | cons d p => exact .inr (by simpa [insert, single, chars, eq_comm] using h)
  | cons d ends child next _ ih =>
    cases p with
    | nil => exact .inl h
    | cons e p =>
      simp only [insert] at h
      split_ifs at h
      · exact .inl h
      · rcases List.mem_cons.mp h with rfl | h
        · exact .inr rfl
        · exact .inl h
      · rcases List.mem_cons.mp h with rfl | h
        · exact .inl List.mem_cons_self
        · exact (ih h).imp (List.mem_cons_of_mem _) id

theorem single_ne_nil {c : Char} {cs : List Char} : single (c :: cs) ≠ .nil := by
  simp [single]

theorem valid_single (cs : List Char) : (single cs).Valid := by
  induction cs with
  | nil => trivial
  | cons c cs ih =>
    refine ⟨by simp [chars], fun h => ?_, ih, trivial⟩
    cases cs with
    | nil => cases h
    | cons d cs => exact single_ne_nil

theorem insert_ne_nil {t : Trie} {c : Char} {cs : List Char} : t.insert (c :: cs) ≠ .nil := by
  cases t with
  | nil => exact single_ne_nil
  | cons d ends child next =>
    simp only [insert]
    split_ifs <;> simp

theorem valid_insert {t : Trie} (h : t.Valid) (p : List Char) : (t.insert p).Valid := by
  induction t generalizing p with
  | nil =>
    cases p with
    | nil => trivial
    | cons c cs => exact valid_single (c :: cs)
  | cons d ends child next ihc ihn =>
    cases p with
    | nil => exact h
    | cons c cs =>
      obtain ⟨hlt, hne, hchild, hnext⟩ := h
      simp only [insert]
      split_ifs with hcd hlow
      · refine ⟨hlt, fun hends => ?_, ihc hchild cs, hnext⟩
        cases cs with
        | nil => simp at hends
        | cons e cs => exact insert_ne_nil
      · refine ⟨fun e he => ?_, fun hends => ?_, valid_single cs, hlt, hne, hchild, hnext⟩
        · rcases List.mem_cons.mp he with rfl | he
          · exact hlow
          · exact hlow.trans (hlt e he)
        · cases cs with
          | nil => simp at hends
          | cons e cs => exact single_ne_nil
      · refine ⟨fun e he => ?_, hne, hchild, ihn hnext (c :: cs)⟩
        rcases mem_chars_insert he with he | he
        · exact hlt e he
        · obtain rfl : c = e := by simpa using he
          exact lt_of_le_of_ne (not_lt.mp hlow) (Ne.symm hcd)

theorem has_single (p w : List Char) : (single p).has w = true ↔ p ≠ [] ∧ w = p := by
  induction p generalizing w with
  | nil => simp [single, has]
  | cons c cs ih =>
    cases w with
    | nil => simp [has_nil]
    | cons d w =>
      simp only [single, has]
      split_ifs with h
      · subst h
        rw [Bool.or_eq_true, ih]
        cases cs with
        | nil => cases w <;> simp
        | cons e cs => simp
      · simp [h]

theorem has_insert {t : Trie} (h : t.Valid) (p w : List Char) :
    (t.insert p).has w = true ↔ t.has w = true ∨ (p ≠ [] ∧ w = p) := by
  induction t generalizing p w with
  | nil =>
    cases p with
    | nil => simp [insert, has]
    | cons c cs =>
      rw [insert, has_single]
      simp [has]
  | cons d ends child next ihc ihn =>
    cases p with
    | nil => simp [insert]
    | cons c cs =>
      obtain ⟨hlt, _, hchild, hnext⟩ := h
      cases w with
      | nil => simp [has_nil]
      | cons e w =>
        have hnot : c < d → next.has (c :: w) = false := by
          intro hcd
          rw [Bool.eq_false_iff]
          intro hhas
          exact absurd (hlt c (mem_chars_of_has hhas)) (not_lt.mpr hcd.le)
        simp only [insert]
        split_ifs with hcd hlow
        · subst hcd
          simp only [has]
          split_ifs with hec
          · subst hec
            simp only [Bool.or_eq_true, Bool.and_eq_true, ihc hchild]
            cases cs with
            | nil => cases w <;> simp
            | cons f cs => cases w <;> simp
          · simp [hec]
        · by_cases hec : e = c
          · subst hec
            have hfalse := hnot hlow
            simp only [has, if_true, if_neg hcd, hfalse, Bool.or_eq_true, has_single]
            cases cs with
            | nil => cases w <;> simp
            | cons f cs => simp
          · simp only [has, if_neg hec]
            simp [hec]
        · simp only [has]
          split_ifs with hed
          · simp [hed, Ne.symm hcd]
          · exact ihn hnext (c :: cs) (e :: w)

/-- The expression of a node: nothing more, a character that no prefix goes on with, or one where
no prefix ends and what the node below allows. -/
def node (chars : List Char) (items : List (List Regex)) : Regex :=
  Regex.union (([] :: [.notIn chars, .star .any] :: items).map Regex.chain)

def items : Trie → List (List Regex)
  | .nil => []
  | .cons c ends child next =>
    if ends then next.items else [.lit c, node child.chars child.items] :: next.items

theorem reads_part (chars : List Char) (h : chars ≠ []) :
    Reads ("[^".toList ++ classOf chars ++ [']'] ++ ['.', '*']) [.notIn chars, .star .any] :=
  (Reads.notIn (classReads_classOf chars) h).append Reads.any_star

theorem reads_group {t : Trie} (hne : t ≠ .nil) (h : List.Forall₂ Reads t.branches t.items) :
    Reads (group t.chars t.branches) [node t.chars t.items] := by
  have hchars : t.chars ≠ [] := by
    cases t with
    | nil => exact absurd rfl hne
    | cons c ends child next => simp [chars]
  exact Reads.group (.cons .nil (.cons (reads_part t.chars hchars) h)) (by simp)

theorem reads_branches {t : Trie} (h : t.Valid) : List.Forall₂ Reads t.branches t.items := by
  induction t with
  | nil => exact .nil
  | cons c ends child next ihc ihn =>
    obtain ⟨_, hne, hchild, hnext⟩ := h
    cases ends with
    | true => exact ihn hnext
    | false =>
      exact .cons ((reads_escapeChar c).append (reads_group (hne rfl) (ihc hchild))) (ihn hnext)

theorem reads_walk {t : Trie} (h : t.Valid) (hne : t ≠ .nil) :
    Reads t.walk [node t.chars t.items] :=
  reads_group hne (reads_branches h)

theorem accepts_items {t : Trie} (h : t.Valid) (c : Char) (text : List Char) :
    (∃ rs ∈ t.items, (Regex.chain rs).accepts (c :: text) = true) ↔
      ∃ u, t.find c = some (false, u) ∧ (node u.chars u.items).accepts text = true := by
  induction t with
  | nil => simp [items, Trie.find]
  | cons d ends child next _ ih =>
    obtain ⟨hlt, _, _, hnext⟩ := h
    have hhead (r : Regex) : (Regex.chain [.lit d, r]).accepts (c :: text) = true ↔
        c = d ∧ r.accepts text = true := by
      have hcons : Regex.chain [.lit d, r] = .seq (.lit d) (Regex.chain [r]) := rfl
      rw [hcons, Regex.accepts_lit_seq]
      constructor
      · rintro ⟨rest, he, hr⟩
        obtain ⟨rfl, rfl⟩ := List.cons.inj he
        rw [Regex.accepts_chain_single] at hr
        exact ⟨rfl, hr⟩
      · rintro ⟨rfl, hr⟩
        exact ⟨text, rfl, by rw [Regex.accepts_chain_single]; exact hr⟩
    have hother : c = d → ¬∃ rs ∈ next.items, (Regex.chain rs).accepts (c :: text) = true := by
      rintro rfl hex
      obtain ⟨u, hu, _⟩ := (ih hnext).mp hex
      have hmem : c ∈ next.chars := by
        rw [mem_chars, hu]
        rfl
      exact absurd (hlt c hmem) (lt_irrefl c)
    simp only [items, Trie.find]
    cases ends with
    | true =>
      simp only [if_true]
      split_ifs with hcd
      · simpa using hother hcd
      · exact ih hnext
    | false =>
      simp only [Bool.false_eq_true, if_false, List.mem_cons, exists_eq_or_imp, hhead]
      split_ifs with hcd
      · simp only [hcd, true_and, Option.some.injEq, Prod.mk.injEq, exists_eq_left']
        have hno := hother hcd
        rw [hcd] at hno
        simp only [hno, or_false]
      · simp only [hcd, false_and, false_or]
        exact ih hnext

/-- It matches the texts that start with none of the prefixes. -/
theorem accepts_node {t : Trie} (h : t.Valid) (text : List Char) :
    (node t.chars t.items).accepts text = true ↔ ∀ w, t.has w = true → ¬w <+: text := by
  induction text generalizing t with
  | nil =>
    have hnode : (node t.chars t.items).accepts [] = true := by
      rw [node, Regex.accepts_union]
      exact ⟨.eps, by simp [Regex.chain], rfl⟩
    simp only [hnode, true_iff]
    intro w hw hpre
    rw [List.prefix_nil] at hpre
    rw [hpre, has_nil] at hw
    cases hw
  | cons c text ih =>
    have hother : (Regex.chain [.notIn t.chars, .star .any]).accepts (c :: text) = true ↔
        c ∉ t.chars := by
      have hcons : Regex.chain [.notIn t.chars, .star .any] =
          .seq (.notIn t.chars) (Regex.chain [.star .any]) := rfl
      rw [hcons, Regex.accepts_seq]
      constructor
      · rintro ⟨u, v, he, hu, _⟩
        obtain ⟨d, hd, rfl⟩ := (Regex.accepts_notIn _ _).mp hu
        rw [(List.cons.inj he).1]
        exact hd
      · intro hc
        refine ⟨[c], text, rfl, (Regex.accepts_notIn _ _).mpr ⟨c, hc, rfl⟩, ?_⟩
        rw [Regex.accepts_chain_single]
        exact Regex.accepts_any_star text
    have hsplit : (node t.chars t.items).accepts (c :: text) = true ↔
        c ∉ t.chars ∨ ∃ rs ∈ t.items, (Regex.chain rs).accepts (c :: text) = true := by
      rw [node, Regex.accepts_union]
      simp only [List.map_cons, List.mem_cons, exists_eq_or_imp, hother]
      have heps : (Regex.chain []).accepts (c :: text) = false := Regex.accepts_eps (c :: text)
      simp only [heps, Bool.false_eq_true, false_or, List.mem_map, exists_exists_and_eq_and]
    rw [hsplit, accepts_items h, mem_chars]
    cases hf : t.find c with
    | none =>
      simp only [Option.isSome_none, Bool.false_eq_true, not_false_eq_true, true_or, true_iff]
      intro w hw hpre
      cases w with
      | nil => simp [has_nil] at hw
      | cons d w =>
        obtain ⟨rfl, _⟩ := List.cons_prefix_cons.mp hpre
        simp [has_cons, hf] at hw
    | some x =>
      obtain ⟨ends, u⟩ := x
      have hhas (w : List Char) : t.has (c :: w) = ((ends && w.isEmpty) || u.has w) := by
        simp [has_cons, hf]
      simp only [Option.isSome_some, not_true_eq_false, false_or, Option.some.injEq, Prod.mk.injEq]
      cases ends with
      | true =>
        simp only [Bool.true_eq_false, false_and, exists_false, false_iff]
        intro hall
        exact hall [c] (by rw [hhas]; rfl) (by simp)
      | false =>
        simp only [true_and, exists_eq_left', ih (h.find hf).1]
        constructor
        · intro hall w hw hpre
          cases w with
          | nil => simp [has_nil] at hw
          | cons d w =>
            obtain ⟨rfl, hrest⟩ := List.cons_prefix_cons.mp hpre
            exact hall w (by simpa [hhas] using hw) hrest
        · intro hall w hw hpre
          exact hall (c :: w) (by simp [hhas, hw]) (List.cons_prefix_cons.mpr ⟨rfl, hpre⟩)

end Trie

theorem insert_all {prefixes : List (List Char)} {t : Trie} (h : t.Valid) :
    (prefixes.foldl Trie.insert t).Valid ∧
      ∀ w, (prefixes.foldl Trie.insert t).has w = true ↔
        t.has w = true ∨ (w ≠ [] ∧ w ∈ prefixes) := by
  induction prefixes generalizing t with
  | nil => simp [h]
  | cons p prefixes ih =>
    obtain ⟨hv, hhas⟩ := ih (t.valid_insert h p)
    refine ⟨hv, fun w => ?_⟩
    simp only [List.foldl_cons, hhas, Trie.has_insert h, List.mem_cons]
    constructor
    · rintro ((ht | ⟨hp, rfl⟩) | ⟨hw, hmem⟩)
      · exact .inl ht
      · exact .inr ⟨hp, .inl rfl⟩
      · exact .inr ⟨hw, .inr hmem⟩
    · rintro (ht | ⟨hw, rfl | hmem⟩)
      · exact .inl (.inl ht)
      · exact .inl (.inr ⟨hw, rfl⟩)
      · exact .inr ⟨hw, hmem⟩

/-- What `without_prefixes` writes is read, and matches the texts that start with none. -/
theorem reads_withoutPrefixes {prefixes : List (List Char)} (hne : prefixes ≠ [])
    (hall : [] ∉ prefixes) :
    ∃ r, Reads (withoutPrefixes prefixes) [r] ∧
      ∀ text, r.accepts text = true ↔ ∀ p ∈ prefixes, ¬p <+: text := by
  have hnone : Trie.nil.Valid := trivial
  obtain ⟨hv, hhas⟩ := @insert_all prefixes .nil hnone
  have hmem (w : List Char) : (prefixes.foldl Trie.insert .nil).has w = true ↔ w ∈ prefixes := by
    rw [hhas]
    simp only [Trie.has, Bool.false_eq_true, false_or, and_iff_right_iff_imp]
    rintro hw rfl
    exact hall hw
  have hnil : prefixes.foldl Trie.insert .nil ≠ .nil := by
    intro h
    obtain ⟨p, hp⟩ := List.exists_mem_of_ne_nil _ hne
    have := (hmem p).mpr hp
    rw [h] at this
    cases this
  refine ⟨_, Trie.reads_walk hv hnil, fun text => ?_⟩
  rw [Trie.accepts_node hv]
  simp only [hmem]

/-- The expression that `without_prefixes` returns matches the whole of a text just when the text
starts with none of the prefixes. -/
theorem fullMatch_withoutPrefixes {prefixes : List (List Char)} (hne : prefixes ≠ [])
    (hall : [] ∉ prefixes) (text : String) :
    fullMatch (String.ofList (withoutPrefixes prefixes)) text =
      some (decide (∀ p ∈ prefixes, ¬p <+: text.toList)) := by
  obtain ⟨r, hr, hnone⟩ := reads_withoutPrefixes hne hall
  obtain ⟨b, hb, hiff⟩ := fullMatch_alternatives (.cons hr .nil) (by simp) text
  rw [List.intercalate_singleton] at hb
  rw [hb]
  congr 1
  rw [Bool.eq_iff_iff, hiff, decide_eq_true_iff, ← hnone]
  simp [Regex.accepts_chain_single]

/-- Metacharacters, a prefix of another and a repeated one. -/
theorem fullMatch_withoutPrefixes_metas :
    fullMatch (String.ofList (withoutPrefixes ["]^".toList, "]^-".toList, "\\".toList, "]^".toList]))
      "]-\\" = some true := by
  rw [fullMatch_withoutPrefixes (by decide) (by decide)]
  decide

def namespaceLabels : List String :=
  ["namespace", "exported_namespace", "claim_namespace", "service_namespace"]

def identityLabels : List String := ["username", "user"]

def sharedIdentities : List String := ["fake"]

def objectLabels : List String :=
  ["configmap", "created_by_name", "deployment", "endpoint", "exported_job", "exported_pod",
    "exported_service", "job", "job_name", "name", "networkpolicy", "owner", "owner_name",
    "persistentvolumeclaim", "pod", "ray_cluster", "replicaset", "secret", "service",
    "service_account", "volume", "workload"]

def userPrefixes : List (List Char) :=
  ("0123456789".toList.map fun d => "purdue-af-".toList ++ [d]) ++
    ["dask-scheduler-".toList, "dask-worker-".toList] ++
    ("0123456789abcdef".toList.map fun h => "dask-".toList ++ [h]) ++
    ["ray-job-".toList, "ray-train-".toList, "claim-".toList, "volume-".toList]

def sharedPrefixes : List (List Char) := ["ray-train-gateway".toList]

def notAPersons : List Char := withoutPrefixes userPrefixes

/-- A caller and the objects of theirs that series name. -/
structure Owned where
  username : String
  pods : Finset String
  daskClusters : Finset String
  claims : Finset String
  volumes : Finset String

namespace Owned
variable (o : Owned)

def named : Finset String := o.pods ∪ o.claims ∪ o.volumes

/-- Expressions for the names of the caller's objects. -/
def objectNames : List (List Char) :=
  (o.named.sort.map fun n => escape n.toList) ++
    o.daskClusters.sort.map fun c =>
      "dask-(?:scheduler-|worker-|credentials-)?".toList ++ escape c.toList ++ "(?:-.*)?".toList

def people : List String := (sharedIdentities ++ [o.username]).filter (· ≠ "")

def identities : List Char := ['|'].intercalate ([] :: o.people.map fun p => escape p.toList)

def allowed : List Char :=
  ['|'].intercalate
    ([notAPersons] ++ (sharedPrefixes.map fun p => escape p ++ ['.', '*']) ++ o.objectNames)

end Owned

/-- The matchers every selector of the caller's query must also satisfy. -/
def matchers (namespaceName : String) (o : Owned) : List RequestMatcher :=
  (namespaceLabels.map fun n => ⟨n, "=~", "|" ++ namespaceName⟩) ++
    (identityLabels.map fun n => ⟨n, "=~", String.ofList o.identities⟩) ++
    objectLabels.map fun n => ⟨n, "=~", String.ofList o.allowed⟩

/-- The value of a label; one that a series lacks is empty. -/
def label (labels : Dict String String) (name : String) : String := (labels.get? name).getD ""

/-- Whether a matcher of type `=~` lets a series through, if its expression is read. -/
def passes (labels : Dict String String) (m : RequestMatcher) : Option Bool :=
  fullMatch m.value (label labels m.name)

theorem fullMatch_identities (o : Owned) (text : String) :
    ∃ b, fullMatch (String.ofList o.identities) text = some b ∧
      (b = true ↔ text = "" ∨ text ∈ o.people) := by
  have hreads : List.Forall₂ Reads ([] :: o.people.map fun p => escape p.toList)
      ([] :: o.people.map fun p => p.toList.map .lit) := by
    refine .cons .nil ?_
    rw [List.forall₂_map_left_iff, List.forall₂_map_right_iff, List.forall₂_same]
    exact fun p _ => reads_escape p.toList
  obtain ⟨b, hb, hiff⟩ := fullMatch_alternatives hreads (by simp) text
  refine ⟨b, hb, ?_⟩
  rw [hiff]
  simp only [List.mem_cons, exists_eq_or_imp, List.mem_map, exists_exists_and_eq_and,
    Regex.accepts_chain_lit, String.toList_inj]
  have heps : (Regex.chain []).accepts text.toList = true ↔ text = "" := by
    simp [Regex.chain, Regex.accepts_eps]
  rw [heps]
  simp

/-- The items of the expression for one of the caller's Dask clusters. -/
def daskItems (cluster : List Char) : List Regex :=
  "dask-".toList.map .lit ++
    ([.opt (Regex.union ((["scheduler-".toList, "worker-".toList, "credentials-".toList].map
        fun k => k.map .lit).map Regex.chain))] ++
      (cluster.map .lit ++ [.opt (Regex.union ([[.lit '-', .star .any]].map Regex.chain))]))

theorem reads_plain {text : List Char} (h : text.any isMeta = false) :
    Reads text (text.map .lit) := by
  induction text with
  | nil => exact .nil
  | cons c text ih =>
    rw [List.any_cons, Bool.or_eq_false_iff] at h
    exact (Reads.lit h.1).append (ih h.2)

theorem reads_dask (cluster : List Char) :
    Reads ("dask-(?:scheduler-|worker-|credentials-)?".toList ++ escape cluster ++
      "(?:-.*)?".toList) (daskItems cluster) := by
  have hkinds : Reads "(?:scheduler-|worker-|credentials-)".toList
      [Regex.union ((["scheduler-".toList, "worker-".toList, "credentials-".toList].map
        fun k => k.map .lit).map Regex.chain)] := by
    have hall : List.Forall₂ Reads
        ["scheduler-".toList, "worker-".toList, "credentials-".toList]
        (["scheduler-".toList, "worker-".toList, "credentials-".toList].map fun k => k.map .lit) :=
      .cons (reads_plain (by decide)) (.cons (reads_plain (by decide))
        (.cons (reads_plain (by decide)) .nil))
    exact Reads.group hall (by simp)
  have hrest : Reads "(?:-.*)".toList [Regex.union ([[.lit '-', .star .any]].map Regex.chain)] := by
    have hall : List.Forall₂ Reads ["-.*".toList] [[Regex.lit '-', .star .any]] :=
      .cons ((Reads.lit (by decide)).append Reads.any_star) .nil
    exact Reads.group hall (by simp)
  have hdask : Reads "dask-".toList ("dask-".toList.map .lit) := reads_plain (by decide)
  have h := hdask.append (hkinds.opt.append ((reads_escape cluster).append hrest.opt))
  unfold daskItems
  convert h using 1
  rw [List.append_assoc, List.append_assoc]
  rfl

/-- A name of the Dask cluster's objects: of its scheduler, a worker, its credentials or
itself, and what goes on with `-`. -/
def DaskName (cluster name : List Char) : Prop :=
  ∃ kind ∈ ["", "scheduler-", "worker-", "credentials-"], ∃ rest : List Char,
    name = "dask-".toList ++ kind.toList ++ cluster ++ rest ∧ (rest = [] ∨ rest.head? = some '-')

/-- What stands between `dask-` and the cluster's number. -/
theorem accepts_kinds (kind : List Char) :
    (Regex.opt (Regex.union ((["scheduler-".toList, "worker-".toList, "credentials-".toList].map
      fun k => k.map .lit).map Regex.chain))).accepts kind = true ↔
      ∃ k ∈ ["", "scheduler-", "worker-", "credentials-"], kind = k.toList := by
  rw [Regex.accepts_opt, Bool.or_eq_true, Regex.accepts_union]
  simp only [List.map_cons, List.map_nil, List.mem_cons, List.not_mem_nil, or_false,
    exists_eq_or_imp, exists_eq_left, List.isEmpty_iff, Regex.accepts_chain_lit]
  exact Iff.rfl

/-- What stands after it. -/
theorem accepts_tail (rest : List Char) :
    (Regex.opt (Regex.union ([[.lit '-', .star .any]].map Regex.chain))).accepts rest = true ↔
      rest = [] ∨ rest.head? = some '-' := by
  have hcons : Regex.chain [.lit '-', .star .any] = .seq (.lit '-') (Regex.chain [.star .any]) := rfl
  rw [Regex.accepts_opt, Bool.or_eq_true, Regex.accepts_union]
  simp only [List.map_cons, List.map_nil, List.mem_singleton, exists_eq_left, List.isEmpty_iff, hcons,
    Regex.accepts_lit_seq, Regex.accepts_chain_single, Regex.accepts_any_star, and_true]
  cases rest with
  | nil => simp
  | cons c rest => simp

theorem accepts_daskItems (cluster name : List Char) :
    (Regex.chain (daskItems cluster)).accepts name = true ↔ DaskName cluster name := by
  unfold daskItems
  constructor
  · intro h
    rw [Regex.accepts_chain_append] at h
    obtain ⟨u, v, rfl, hu, h⟩ := h
    rw [Regex.accepts_chain_append] at h
    obtain ⟨kind, v, rfl, hkind, h⟩ := h
    rw [Regex.accepts_chain_append] at h
    obtain ⟨w, rest, rfl, hw, hrest⟩ := h
    rw [Regex.accepts_chain_lit] at hu hw
    rw [Regex.accepts_chain_single, accepts_kinds] at hkind
    rw [Regex.accepts_chain_single, accepts_tail] at hrest
    obtain ⟨k, hk, rfl⟩ := hkind
    exact ⟨k, hk, rest, by rw [hu, hw]; simp only [List.append_assoc], hrest⟩
  · rintro ⟨k, hk, rest, rfl, hrest⟩
    rw [Regex.accepts_chain_append]
    refine ⟨_, k.toList ++ (cluster ++ rest), by simp only [List.append_assoc],
      (Regex.accepts_chain_lit _ _).mpr rfl, ?_⟩
    rw [Regex.accepts_chain_append]
    refine ⟨_, _, rfl, ?_, ?_⟩
    · rw [Regex.accepts_chain_single, accepts_kinds]
      exact ⟨k, hk, rfl⟩
    · rw [Regex.accepts_chain_append]
      refine ⟨_, _, rfl, (Regex.accepts_chain_lit _ _).mpr rfl, ?_⟩
      rw [Regex.accepts_chain_single, accepts_tail]
      exact hrest

/-- What a name must be for the expression for names of objects to match it. -/
def Allowed (o : Owned) (name : List Char) : Prop :=
  (∀ p ∈ userPrefixes, ¬p <+: name) ∨ (∃ p ∈ sharedPrefixes, p <+: name) ∨
    (∃ n ∈ o.named, name = n.toList) ∨ ∃ c ∈ o.daskClusters, DaskName c.toList name

theorem fullMatch_allowed (o : Owned) (text : String) :
    ∃ b, fullMatch (String.ofList o.allowed) text = some b ∧ (b = true ↔ Allowed o text.toList) := by
  obtain ⟨r, hr, hnone⟩ := @reads_withoutPrefixes userPrefixes (by decide) (by decide)
  have hreads : List.Forall₂ Reads
      ([notAPersons] ++ (sharedPrefixes.map fun p => escape p ++ ['.', '*']) ++ o.objectNames)
      ([[r]] ++ (sharedPrefixes.map fun p => p.map .lit ++ [.star .any]) ++
        ((o.named.sort.map fun n => n.toList.map .lit) ++
          o.daskClusters.sort.map fun c => daskItems c.toList)) := by
    refine List.rel_append (List.rel_append (.cons hr .nil) ?_) (List.rel_append ?_ ?_)
    · rw [List.forall₂_map_left_iff, List.forall₂_map_right_iff, List.forall₂_same]
      exact fun p _ => (reads_escape p).append Reads.any_star
    · rw [List.forall₂_map_left_iff, List.forall₂_map_right_iff, List.forall₂_same]
      exact fun n _ => reads_escape n.toList
    · rw [List.forall₂_map_left_iff, List.forall₂_map_right_iff, List.forall₂_same]
      exact fun c _ => reads_dask c.toList
  obtain ⟨b, hb, hiff⟩ := fullMatch_alternatives hreads (by simp) text
  refine ⟨b, hb, ?_⟩
  have hshared (p : List Char) :
      (Regex.chain (p.map .lit ++ [.star .any])).accepts text.toList = true ↔ p <+: text.toList := by
    simp only [Regex.accepts_chain_append, Regex.accepts_chain_lit, Regex.accepts_chain_single,
      Regex.accepts_any_star, and_true]
    constructor
    · rintro ⟨u, v, he, rfl⟩
      exact ⟨v, he.symm⟩
    · rintro ⟨v, he⟩
      exact ⟨p, v, he.symm, rfl⟩
  rw [hiff]
  simp only [List.mem_append, List.mem_singleton, List.mem_map, Finset.mem_sort, or_and_right,
    exists_or, exists_eq_left, exists_exists_and_eq_and, Regex.accepts_chain_single, hnone, hshared,
    Regex.accepts_chain_lit, accepts_daskItems, or_assoc]
  exact Iff.rfl

theorem fullMatch_namespace {namespaceName : String} (h : namespaceName.toList.any isMeta = false)
    (text : String) :
    ∃ b, fullMatch ("|" ++ namespaceName) text = some b ∧
      (b = true ↔ text = "" ∨ text = namespaceName) := by
  have hreads : List.Forall₂ Reads [[], namespaceName.toList]
      [[], namespaceName.toList.map .lit] := .cons .nil (.cons (reads_plain h) .nil)
  obtain ⟨b, hb, hiff⟩ := fullMatch_alternatives hreads (by simp) text
  have hpattern : String.ofList (['|'].intercalate [[], namespaceName.toList]) =
      "|" ++ namespaceName := by
    rw [← String.toList_inj, String.toList_ofList, String.toList_append]
    simp [List.intercalate]
  rw [hpattern] at hb
  refine ⟨b, hb, ?_⟩
  rw [hiff]
  simp only [List.mem_cons, List.not_mem_nil, or_false, exists_eq_or_imp, exists_eq_left,
    Regex.accepts_chain_lit, String.toList_inj]
  simp [Regex.chain, Regex.accepts_eps]

/-- What a caller is meant to see: the namespace's series, the caller's own of those that name a
person, and of the objects those that are nobody's, shared, or the caller's. -/
structure Visible (namespaceName : String) (o : Owned) (labels : Dict String String) : Prop where
  namespaces : ∀ n ∈ namespaceLabels, label labels n = "" ∨ label labels n = namespaceName
  identities : ∀ n ∈ identityLabels, label labels n = "" ∨ label labels n ∈ sharedIdentities ∨
    o.username ≠ "" ∧ label labels n = o.username
  objects : ∀ n ∈ objectLabels, (∀ p ∈ userPrefixes, ¬p <+: (label labels n).toList) ∨
    (∃ p ∈ sharedPrefixes, p <+: (label labels n).toList) ∨
    label labels n ∈ o.pods ∪ o.claims ∪ o.volumes ∨
    ∃ c ∈ o.daskClusters, DaskName c.toList (label labels n).toList

theorem mem_people (o : Owned) (text : String) :
    text = "" ∨ text ∈ o.people ↔
      text = "" ∨ text ∈ sharedIdentities ∨ o.username ≠ "" ∧ text = o.username := by
  simp only [Owned.people, List.mem_filter, List.mem_append, List.mem_singleton,
    decide_eq_true_eq]
  constructor
  · rintro (h | ⟨h | h, hne⟩)
    · exact .inl h
    · exact .inr (.inl h)
    · exact .inr (.inr ⟨h ▸ hne, h⟩)
  · rintro (h | h | ⟨hne, h⟩)
    · exact .inl h
    · refine .inr ⟨.inl h, ?_⟩
      rintro rfl
      exact absurd h (by decide)
    · exact .inr ⟨.inr h, h ▸ hne⟩

/-- A series passes all of the caller's matchers just when the caller is meant to see it. The
namespace is one of Kubernetes, whose names hold no character that an expression reads otherwise;
all other names count literally. -/
theorem passes_all_iff {namespaceName : String} (h : namespaceName.toList.any isMeta = false)
    (o : Owned) (labels : Dict String String) :
    (∀ m ∈ matchers namespaceName o, passes labels m = some true) ↔
      Visible namespaceName o labels := by
  have hpasses {m : RequestMatcher} {b : Bool} {P : Prop}
      (hb : fullMatch m.value (label labels m.name) = some b) (hP : b = true ↔ P) :
      passes labels m = some true ↔ P := by
    rw [passes, hb, Option.some_inj, hP]
  have hnames (n : String) : passes labels ⟨n, "=~", "|" ++ namespaceName⟩ = some true ↔
      label labels n = "" ∨ label labels n = namespaceName := by
    obtain ⟨b, hb, hiff⟩ := fullMatch_namespace h (label labels n)
    exact hpasses hb hiff
  have hpeople (n : String) : passes labels ⟨n, "=~", String.ofList o.identities⟩ = some true ↔
      label labels n = "" ∨ label labels n ∈ sharedIdentities ∨
        o.username ≠ "" ∧ label labels n = o.username := by
    obtain ⟨b, hb, hiff⟩ := fullMatch_identities o (label labels n)
    exact hpasses hb (hiff.trans (mem_people o _))
  have hobjects (n : String) : passes labels ⟨n, "=~", String.ofList o.allowed⟩ = some true ↔
      Allowed o (label labels n).toList := by
    obtain ⟨b, hb, hiff⟩ := fullMatch_allowed o (label labels n)
    exact hpasses hb hiff
  have hnamed (n : String) : (∃ m ∈ o.named, (label labels n).toList = m.toList) ↔
      label labels n ∈ o.pods ∪ o.claims ∪ o.volumes := by
    simp only [String.toList_inj, exists_eq_right']
    exact Iff.rfl
  constructor
  · intro hall
    refine ⟨fun n hn => (hnames n).mp (hall _ ?_), fun n hn => (hpeople n).mp (hall _ ?_),
      fun n hn => ?_⟩
    · exact List.mem_append_left _ (List.mem_append_left _ (List.mem_map_of_mem hn))
    · exact List.mem_append_left _ (List.mem_append_right _ (List.mem_map_of_mem hn))
    · rw [← hnamed]
      exact (hobjects n).mp (hall _ (List.mem_append_right _ (List.mem_map_of_mem hn)))
  · rintro ⟨hns, hids, hobjs⟩ m hm
    simp only [matchers, List.mem_append, List.mem_map] at hm
    rcases hm with (⟨n, hn, rfl⟩ | ⟨n, hn, rfl⟩) | ⟨n, hn, rfl⟩
    · exact (hnames n).mpr (hns n hn)
    · exact (hpeople n).mpr (hids n hn)
    · have hobj := hobjs n hn
      rw [← hnamed] at hobj
      exact (hobjects n).mpr hobj

/-- A dot in a name stands for itself. -/
theorem passes_all_dotted :
    (∀ m ∈ matchers "cms" ⟨"a.b", ∅, ∅, ∅, ∅⟩, passes [("username", "a.b")] m = some true) ∧
    ¬∀ m ∈ matchers "cms" ⟨"a.b", ∅, ∅, ∅, ∅⟩, passes [("username", "axb")] m = some true := by
  rw [passes_all_iff (by decide), passes_all_iff (by decide)]
  refine ⟨⟨by decide, by decide, fun n hn => .inl ?_⟩, fun hvisible => ?_⟩
  · have hall : ∀ n ∈ objectLabels, label [("username", "a.b")] n = "" := by decide
    rw [hall n hn]
    decide
  · exact absurd (hvisible.identities "username" (by decide)) (by decide)

def isHex (c : Char) : Bool := "0123456789abcdef".toList.contains c

theorem digit_mem {c : Char} (h : RayNaming.isDigit c = true) : c ∈ "0123456789".toList := by
  simp only [RayNaming.isDigit, Bool.and_eq_true, decide_eq_true_eq] at h
  have hnat : c.toNat ∈ (List.range 10).map (48 + ·) := by
    have hlow : 48 ≤ c.toNat := h.1
    have hhigh : c.toNat ≤ 57 := h.2
    exact List.mem_map.mpr ⟨c.toNat - 48, List.mem_range.mpr (by omega), by omega⟩
  have hall : ∀ n ∈ (List.range 10).map (48 + ·), Char.ofNat n ∈ "0123456789".toList := by decide
  have hc := hall _ hnat
  rwa [Char.ofNat_toNat] at hc

/-- The name of an object of user `b` that is none of the caller's. -/
inductive Foreign (b : String) (o : Owned) : List Char → Prop
  | session (id : List Char) (hne : id ≠ []) (hid : ∀ c ∈ id, RayNaming.isDigit c = true)
      (hnot : String.ofList ("purdue-af-".toList ++ id) ∉ o.named) :
      Foreign b o ("purdue-af-".toList ++ id)
  | dask (kind : String) (cluster rest : List Char) (hkind : kind ∈ ["", "scheduler-", "worker-"])
      (hne : cluster ≠ []) (hhex : ∀ c ∈ cluster, isHex c = true)
      (hrest : rest = [] ∨ rest.head? = some '-')
      (hnot : String.ofList ("dask-".toList ++ kind.toList ++ cluster ++ rest) ∉ o.named)
      (hcluster : String.ofList cluster ∉ o.daskClusters) :
      Foreign b o ("dask-".toList ++ kind.toList ++ cluster ++ rest)
  | rayCluster (rest : List Char) (hrest : rest = [] ∨ rest.head? = some '-')
      (hnot : String.ofList ((RayNaming.clusterName b).toList ++ rest) ∉ o.named) :
      Foreign b o ((RayNaming.clusterName b).toList ++ rest)
  | rayJob (rest : List Char) (hnot : String.ofList ("ray-job-".toList ++ rest) ∉ o.named) :
      Foreign b o ("ray-job-".toList ++ rest)
  | claim (rest : List Char) (hnot : String.ofList ("claim-".toList ++ rest) ∉ o.named) :
      Foreign b o ("claim-".toList ++ rest)
  | volume (rest : List Char) (hnot : String.ofList ("volume-".toList ++ rest) ∉ o.named) :
      Foreign b o ("volume-".toList ++ rest)

variable {b : String} {o : Owned} {name : List Char}

theorem Foreign.not_named (h : Foreign b o name) : ∀ n ∈ o.named, name ≠ n.toList := by
  have hall {x : List Char} (hnot : String.ofList x ∉ o.named) : ∀ n ∈ o.named, x ≠ n.toList := by
    rintro n hn rfl
    rw [String.ofList_toList] at hnot
    exact hnot hn
  cases h with
  | session id _ _ hnot => exact hall hnot
  | dask kind cluster rest _ _ _ _ hnot _ => exact hall hnot
  | rayCluster rest _ hnot => exact hall hnot
  | rayJob rest hnot => exact hall hnot
  | claim rest hnot => exact hall hnot
  | volume rest hnot => exact hall hnot

theorem rayTrain_clusterName (b : String) (rest : List Char) :
    "ray-train-".toList <+: (RayNaming.clusterName b).toList ++ rest := by
  obtain ⟨x, -, hx⟩ := RayNaming.toList_clusterName b
  have happ : (RayNaming.clusterName b).toList ++ rest = RayNaming.clusterStem ++ (x ++ rest) :=
    (congrArg (· ++ rest) hx).trans (List.append_assoc _ _ _)
  exact ⟨x ++ rest, happ.symm⟩

theorem not_dask_clusterName {rest : List Char} :
    ¬"dask-".toList <+: (RayNaming.clusterName b).toList ++ rest := by
  intro h
  obtain ⟨x, hx⟩ := h
  obtain ⟨y, hy⟩ := rayTrain_clusterName b rest
  have heq := congrArg List.head? (hx.trans hy.symm)
  simp at heq

/-- Every user's objects are named with a user prefix. -/
theorem Foreign.prefixed (h : Foreign b o name) : ∃ p ∈ userPrefixes, p <+: name := by
  cases h with
  | session id hne hid _ =>
    obtain ⟨d, id, rfl⟩ := List.exists_cons_of_ne_nil hne
    have hd : d ∈ "0123456789".toList := digit_mem (hid d List.mem_cons_self)
    refine ⟨"purdue-af-".toList ++ [d], ?_, by simp⟩
    have hmap := List.mem_map_of_mem (f := fun d => "purdue-af-".toList ++ [d]) hd
    exact List.mem_append_left _ (List.mem_append_left _ (List.mem_append_left _ hmap))
  | dask kind cluster rest hkind hne hhex _ _ _ =>
    simp only [List.mem_cons, List.not_mem_nil, or_false] at hkind
    rcases hkind with rfl | rfl | rfl
    · obtain ⟨d, cluster, rfl⟩ := List.exists_cons_of_ne_nil hne
      have hd : d ∈ "0123456789abcdef".toList :=
        List.contains_iff_mem.mp (hhex d List.mem_cons_self)
      refine ⟨"dask-".toList ++ [d], ?_, by simp⟩
      have hmap := List.mem_map_of_mem (f := fun h => "dask-".toList ++ [h]) hd
      exact List.mem_append_left _ (List.mem_append_right _ hmap)
    · exact ⟨"dask-scheduler-".toList, by decide, ⟨cluster ++ rest, by simp⟩⟩
    · exact ⟨"dask-worker-".toList, by decide, ⟨cluster ++ rest, by simp⟩⟩
  | rayCluster rest _ _ =>
    exact ⟨"ray-train-".toList, by decide, rayTrain_clusterName b rest⟩
  | rayJob rest _ => exact ⟨"ray-job-".toList, by decide, ⟨rest, rfl⟩⟩
  | claim rest _ => exact ⟨"claim-".toList, by decide, ⟨rest, rfl⟩⟩
  | volume rest _ => exact ⟨"volume-".toList, by decide, ⟨rest, rfl⟩⟩

/-- A name with what goes on with `-` gives away the digits it starts with. -/
theorem takeWhile_hex {cluster rest : List Char} (hhex : ∀ c ∈ cluster, isHex c = true)
    (hrest : rest = [] ∨ rest.head? = some '-') : (cluster ++ rest).takeWhile isHex = cluster := by
  have hnone : rest.takeWhile isHex = [] := by
    rcases hrest with rfl | hrest
    · rfl
    · cases rest with
      | nil => rfl
      | cons c rest =>
        obtain rfl : c = '-' := by simpa using hrest
        rfl
  rw [List.takeWhile_append_of_pos hhex, hnone, List.append_nil]

/-- No other user's object is named like one of the caller's Dask clusters'. -/
theorem Foreign.not_daskName (h : Foreign b o name) {c : String} (hc : c ∈ o.daskClusters)
    (hhex : ∀ d ∈ c.toList, isHex d = true) : ¬DaskName c.toList name := by
  rintro ⟨kind, hkind, rest, he, hrest⟩
  have hstart : "dask-".toList <+: name := by
    rw [he, List.append_assoc, List.append_assoc]
    exact List.prefix_append _ _
  cases h with
  | session id _ _ _ => simp at hstart
  | rayCluster more _ _ =>
    exact not_dask_clusterName hstart
  | rayJob more _ => simp at hstart
  | claim more _ => simp at hstart
  | volume more _ => simp at hstart
  | dask kind' cluster rest' hkind' hne hhex' hrest' _ hnot =>
    have htail : kind'.toList ++ (cluster ++ rest') = kind.toList ++ (c.toList ++ rest) := by
      simpa [List.append_assoc] using he
    have hsame : cluster ++ rest' = c.toList ++ rest → False := by
      intro heq
      have htake := congrArg (List.takeWhile isHex) heq
      rw [takeWhile_hex hhex' hrest', takeWhile_hex hhex hrest] at htake
      rw [htake, String.ofList_toList] at hnot
      exact hnot hc
    -- What a name starts with that is not a digit of a cluster's.
    have hhead {x y : List Char} {d : Char} (hx : ∀ e ∈ x, isHex e = true)
        (hy : y = [] ∨ y.head? = some '-') (hd : (x ++ y).head? = some d) :
        isHex d = true ∨ d = '-' := by
      cases x with
      | nil =>
        rcases hy with rfl | hy
        · cases hd
        · rw [List.nil_append, hy] at hd
          exact .inr (Option.some.inj hd).symm
      | cons e x =>
        obtain rfl : e = d := by simpa using hd
        exact .inl (hx e (by simp))
    simp only [List.mem_cons, List.not_mem_nil, or_false] at hkind hkind'
    rcases hkind' with rfl | rfl | rfl
    · rcases hkind with rfl | rfl | rfl | rfl
      · exact hsame htail
      · have := hhead hhex' hrest' (by rw [show cluster ++ rest' = _ from htail]; rfl)
        revert this
        decide
      · have := hhead hhex' hrest' (by rw [show cluster ++ rest' = _ from htail]; rfl)
        revert this
        decide
      · have htake := congrArg (List.takeWhile isHex) (show cluster ++ rest' = _ from htail)
        rw [takeWhile_hex hhex' hrest'] at htake
        have hcluster : cluster = ['c'] := by simpa [isHex] using htake
        subst hcluster
        have hr : rest' = "redentials-".toList ++ (c.toList ++ rest) := by simpa using htail
        rw [hr] at hrest'
        simp at hrest'
    · rcases hkind with rfl | rfl | rfl | rfl
      · have := hhead hhex hrest (by rw [show c.toList ++ rest = _ from htail.symm]; rfl)
        revert this
        decide
      · exact hsame (by simpa using htail)
      · simp at htail
      · simp at htail
    · rcases hkind with rfl | rfl | rfl | rfl
      · have := hhead hhex hrest (by rw [show c.toList ++ rest = _ from htail.symm]; rfl)
        revert this
        decide
      · simp at htail
      · exact hsame (by simpa using htail)
      · simp at htail

/-- The caller's matchers hide every other user's series: those with the user's name, unless
it is a shared identity, and those with the name of one of the user's objects, unless that
starts like a shared component's. -/
theorem matchers_hide {namespaceName : String} {labels : Dict String String}
    (huser : b ≠ o.username) (hne : b ≠ "")
    (hhex : ∀ c ∈ o.daskClusters, ∀ d ∈ c.toList, isHex d = true)
    (h : (b ∉ sharedIdentities ∧ ∃ n ∈ identityLabels, label labels n = b) ∨
      ∃ n ∈ objectLabels, Foreign b o (label labels n).toList ∧
        ∀ p ∈ sharedPrefixes, ¬p <+: (label labels n).toList) :
    ∃ m ∈ matchers namespaceName o, passes labels m = some false := by
  rcases h with ⟨hshared, n, hn, hlabel⟩ | ⟨n, hn, hforeign, hshared⟩
  · refine ⟨⟨n, "=~", String.ofList o.identities⟩, ?_, ?_⟩
    · simp only [matchers, List.mem_append, List.mem_map]
      exact .inl (.inr ⟨n, hn, rfl⟩)
    · obtain ⟨x, hx, hiff⟩ := fullMatch_identities o (label labels n)
      have hfalse : x = false := by
        rw [Bool.eq_false_iff]
        intro ht
        rcases hiff.mp ht with he | hmem
        · exact hne (hlabel ▸ he)
        · rw [hlabel] at hmem
          simp only [Owned.people, List.mem_filter, List.mem_append, List.mem_singleton] at hmem
          rcases hmem.1 with hmem | hmem
          · exact hshared hmem
          · exact huser hmem
      rw [passes, hx, hfalse]
  · refine ⟨⟨n, "=~", String.ofList o.allowed⟩, ?_, ?_⟩
    · simp only [matchers, List.mem_append, List.mem_map]
      exact .inr ⟨n, hn, rfl⟩
    · obtain ⟨x, hx, hallowed⟩ := fullMatch_allowed o (label labels n)
      have hfalse : x = false := by
        rw [Bool.eq_false_iff]
        intro ht
        rcases hallowed.mp ht with hno | ⟨p, hp, hpre⟩ | ⟨m, hm, he⟩ | ⟨c, hc, hdask⟩
        · obtain ⟨p, hp, hpre⟩ := hforeign.prefixed
          exact hno p hp hpre
        · exact hshared p hp hpre
        · exact hforeign.not_named m hm he
        · exact hforeign.not_daskName hc (hhex c hc) hdask
      rw [passes, hx, hfalse]

/-- A user named like Loki's tenant is seen by everyone. -/
theorem not_hidden_fake :
    ¬∀ (namespaceName : String) (o : Owned) (b : String) (labels : Dict String String),
      b ≠ o.username → b ≠ "" → (∀ c ∈ o.daskClusters, ∀ d ∈ c.toList, isHex d = true) →
      ((∃ n ∈ identityLabels, label labels n = b) ∨
        ∃ n ∈ objectLabels, Foreign b o (label labels n).toList) →
      ∃ m ∈ matchers namespaceName o, passes labels m = some false := by
  intro h
  let o : Owned := ⟨"alice", ∅, ∅, ∅, ∅⟩
  have hnone : ∀ c ∈ o.daskClusters, ∀ d ∈ c.toList, isHex d = true := by simp [o]
  obtain ⟨m, hm, hfalse⟩ := h "cms" o "fake" [("user", "fake")] (by decide) (by decide) hnone
    (.inl ⟨"user", by decide, by decide⟩)
  simp only [matchers, List.mem_append, List.mem_map] at hm
  rcases hm with (⟨n, hn, rfl⟩ | ⟨n, hn, rfl⟩) | ⟨n, hn, rfl⟩
  · have hall : ∀ n ∈ namespaceLabels,
        passes [("user", "fake")] ⟨n, "=~", "|" ++ "cms"⟩ = some true := by decide +kernel
    rw [hall n hn] at hfalse
    cases hfalse
  · obtain ⟨x, hx, hiff⟩ := fullMatch_identities o (label [("user", "fake")] n)
    have hall : ∀ n ∈ identityLabels,
        label [("user", "fake")] n = "" ∨ label [("user", "fake")] n ∈ o.people := by decide
    rw [passes, hx, hiff.mpr (hall n hn)] at hfalse
    cases hfalse
  · obtain ⟨x, hx, hallowed⟩ := fullMatch_allowed o (label [("user", "fake")] n)
    have hall : ∀ n ∈ objectLabels, label [("user", "fake")] n = "" := by decide
    have htrue : x = true := by
      apply hallowed.mpr
      rw [hall n hn]
      exact .inl (by decide)
    rw [passes, hx, htrue] at hfalse
    cases hfalse

/-- Alice does not see the scheduler of a cluster whose number goes on where hers ends. -/
theorem matchers_hide_scheduler :
    ∃ m ∈ matchers "cms" ⟨"alice", {"purdue-af-7"}, {"0a1b2c"}, {"claim-alice"}, {"volume-alice"}⟩,
      passes [("pod", "dask-scheduler-0a1b2c3")] m = some false := by
  let o : Owned := ⟨"alice", {"purdue-af-7"}, {"0a1b2c"}, {"claim-alice"}, {"volume-alice"}⟩
  have hname : (label [("pod", "dask-scheduler-0a1b2c3")] "pod").toList =
      "dask-".toList ++ "scheduler-".toList ++ "0a1b2c3".toList ++ [] := by decide
  have hforeign : Foreign "bob" o
      ("dask-".toList ++ "scheduler-".toList ++ "0a1b2c3".toList ++ []) :=
    .dask "scheduler-" "0a1b2c3".toList [] (by decide) (by decide)
      (List.all_eq_true.mp (by decide)) (.inl rfl) (by decide) (by decide)
  have hhex : ∀ c ∈ o.daskClusters, ∀ d ∈ c.toList, isHex d = true := by
    intro c hc
    obtain rfl : c = "0a1b2c" := by simpa [o] using hc
    exact List.all_eq_true.mp (by decide)
  refine matchers_hide (b := "bob") (o := o) (by decide) (by decide) hhex
    (.inr ⟨"pod", by decide, ?_, ?_⟩)
  · rw [hname]
    exact hforeign
  · rw [hname]
    decide

end PurdueAF.PromqlMatchers

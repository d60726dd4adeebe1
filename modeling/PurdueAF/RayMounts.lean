import PurdueAF.RaySettings

/-!
# The storage a path of a call lies on

A root holds a path by its text: `normpath` writes the path out, and the root's text with one
slash is to begin it. The components of both say the same without the text.
-/
namespace PurdueAF.Ray

open Py

structure Volume where
  name : String
  emptyDir : Bool := false
  deriving DecidableEq, Repr

structure VolumeMount where
  name : String
  mountPath : String
  deriving DecidableEq, Repr

/-- What `env_roots` reads of a template: its head's volumes, and what the one container of the
head mounts. -/
structure HeadPod where
  volumes : List Volume
  volumeMounts : List VolumeMount
  deriving DecidableEq, Repr

/-- The head of `raycluster.yaml`. -/
def loadTemplate : HeadPod where
  volumes := [⟨"log-volume", true⟩, ⟨"work", false⟩, ⟨"depot", false⟩, ⟨"eos", false⟩,
    ⟨"cvmfs", false⟩]
  volumeMounts := [⟨"log-volume", "/tmp/ray"⟩, ⟨"work", "/work"⟩, ⟨"depot", "/depot/cms"⟩,
    ⟨"eos", "/eos"⟩, ⟨"cvmfs", "/cvmfs"⟩]

def accountKeptVolumes : List String := ["log-volume", "cvmfs"]

/-- A workload account's template keeps some volumes and mounts its own. -/
def clusterTemplate (user : User) : HeadPod :=
  if user.workload then
    { volumes := loadTemplate.volumes.filter (fun v => accountKeptVolumes.contains v.name) ++
        [⟨user.name, false⟩]
      volumeMounts :=
        loadTemplate.volumeMounts.filter (fun m => accountKeptVolumes.contains m.name) ++
          [⟨user.name, "/" ++ user.name⟩] }
  else loadTemplate

def rootsOf (template : HeadPod) : List String :=
  let scratch := (template.volumes.filter (·.emptyDir)).map (·.name)
  (template.volumeMounts.filter fun m => !scratch.contains m.name).map (·.mountPath)

/-- No account is named like the scratch volume: `RESERVED_NAMES` has the name. -/
theorem rootsOf_clusterTemplate {user : User} (h : user.name ≠ "log-volume") :
    rootsOf (clusterTemplate user) = envRoots user := by
  by_cases hw : user.workload
  · simp [clusterTemplate, envRoots, hw, rootsOf, loadTemplate, accountKeptVolumes, h]
  · simp [clusterTemplate, envRoots, hw, rootsOf, loadTemplate]

def mountedOn (roots : List String) (value : String) : Except Refused String :=
  let path := normpath value.toList
  let onRoot (root : String) : Bool :=
    path = root.toList || (rstripSlash root.toList ++ ['/']).isPrefixOf path
  if value.toList.head? = some '/' ∧ roots.any onRoot then .ok (String.ofList path)
  else .error ⟨.invalidArgument, value ++ " is not on storage your Ray cluster mounts: " ++
    ", ".intercalate roots ++ "."⟩

def requestedOn (roots : List String) (value : String) : Except Refused String :=
  if value = "" then .ok defaultEnv else mountedOn roots value

def dataPathOn (roots : List String) (header : String) (made : Bool) (value : String) :
    Except Refused (Option String) :=
  let path := normpath value.toList
  let inRoot (root : String) : Bool := (rstripSlash root.toList ++ ['/']).isPrefixOf path
  let top := dirname path
  if value = "" then .ok none
  else if value.toList.head? ≠ some '/' ∨ roots.any inRoot = false then
    .error ⟨.invalidArgument, header ++ ": " ++ value ++ " is not on storage your jobs mount: " ++
      ", ".intercalate roots ++ "."⟩
  else if made ∧ roots.any fun root => top = rstripSlash root.toList then
    .error ⟨.invalidArgument, header ++ ": " ++ value ++ " would be made at the top of " ++
      String.ofList top ++
      ", which is shared: name a directory inside your own, such as one under /work/users."⟩
  else .ok (some (String.ofList path))

def dataPathsOn (roots : List String) (inputs output : String) :
    Except Refused (Option String × Option String) := do
  let read ← dataPathOn roots "af-inputs" false inputs
  let written ← dataPathOn roots "af-output" true output
  return (read, written)

theorem mountedEnv_eq (value : String) (user : User) :
    mountedEnv value user = mountedOn (envRoots user) value := rfl

theorem requestedEnv_eq (value : String) (user : User) :
    requestedEnv value user = requestedOn (envRoots user) value := rfl

theorem dataPaths_eq (user : User) (inputs output : String) :
    dataPaths user inputs output = dataPathsOn (envRoots user) inputs output := rfl

/-- A path from the root, of components. -/
def pathOf (comps : List (List Char)) : List Char := '/' :: List.intercalate ['/'] comps

/-- The components a rooted path comes to, its ends of one and its ways up taken. -/
def components (path : List Char) : List (List Char) :=
  ((path.splitOn '/').foldl (normComponent true) []).reverse

theorem kept_components (path : List Char) : ∀ c ∈ components path, Kept c := by
  intro c hc
  exact kept_foldl (by simp) (fun c hc => FileTree.notMem_of_mem_splitOn hc) c (List.mem_reverse.mp hc)

/-- Each component with the slash before it. -/
def slashed (comps : List (List Char)) : List Char := comps.flatMap ('/' :: ·)

theorem slashed_append (comps more : List (List Char)) :
    slashed (comps ++ more) = slashed comps ++ slashed more := List.flatMap_append

theorem slashed_eq_pathOf {comps : List (List Char)} (h : comps ≠ []) :
    slashed comps = pathOf comps := by
  induction comps with
  | nil => exact absurd rfl h
  | cons c rest ih =>
    by_cases hrest : rest = []
    · subst hrest
      simp [slashed, pathOf]
    · have hstep : slashed (c :: rest) = '/' :: c ++ slashed rest := by simp [slashed]
      rw [hstep, ih hrest, pathOf, pathOf, List.intercalate_cons_of_ne_nil hrest]
      simp

theorem splitOn_slashed {comps : List (List Char)} (h : ∀ c ∈ comps, '/' ∉ c) :
    (slashed comps).splitOn '/' = [] :: comps := by
  by_cases hne : comps = []
  · subst hne
    simp [slashed]
  · rw [slashed_eq_pathOf hne, pathOf, List.splitOn_cons_eq_if_modifyHead, if_pos (by simp),
      List.splitOn_intercalate '/' h hne]

theorem slashed_inj {comps more : List (List Char)} (h : ∀ c ∈ comps, '/' ∉ c)
    (hm : ∀ c ∈ more, '/' ∉ c) (heq : slashed comps = slashed more) : comps = more := by
  have hsplit : [] :: comps = [] :: more := by
    rw [← splitOn_slashed h, ← splitOn_slashed hm, heq]
  exact (List.cons.inj hsplit).2

theorem rstripSlash_append_slash (path : List Char) :
    rstripSlash (path ++ ['/']) = rstripSlash path := by
  simp [rstripSlash]

theorem rstripSlash_slashed {comps : List (List Char)} (h : ∀ c ∈ comps, Kept c) :
    rstripSlash (slashed comps) = slashed comps := by
  obtain rfl | ⟨front, c, rfl⟩ := List.eq_nil_or_concat comps
  · rfl
  · obtain ⟨hne, -, -, hslash⟩ := h c (by simp)
    obtain rfl | ⟨letters, d, rfl⟩ := List.eq_nil_or_concat c
    · exact absurd rfl hne
    · have hd : d ≠ '/' := by
        rintro rfl
        exact hslash (by simp)
      simp [rstripSlash, slashed, hd]

/-- What a path holds above its last component. -/
theorem dirname_slashed {comps : List (List Char)} {c : List Char} (h : ∀ d ∈ comps, Kept d)
    (hc : '/' ∉ c) :
    dirname (slashed (comps ++ [c])) = if comps = [] then ['/'] else slashed comps := by
  have hdrop : ((slashed (comps ++ [c])).reverse.dropWhile (· ≠ '/')).reverse =
      slashed comps ++ ['/'] := by
    have hrev : (slashed (comps ++ [c])).reverse = c.reverse ++ '/' :: (slashed comps).reverse := by
      simp [slashed]
    have hall : ∀ d ∈ c.reverse, decide (d ≠ '/') = true := by
      intro d hd
      refine decide_eq_true ?_
      rintro rfl
      exact hc (List.mem_reverse.mp hd)
    rw [hrev, List.dropWhile_append_of_pos hall, List.dropWhile_cons_of_neg (by simp)]
    simp
  unfold dirname
  dsimp only
  rw [hdrop]
  cases comps with
  | nil => rfl
  | cons d rest =>
    obtain ⟨hne, -, -, hslash⟩ := h d (by simp)
    obtain ⟨e, es, rfl⟩ := List.exists_cons_of_ne_nil hne
    have he : e ≠ '/' := by
      rintro rfl
      exact hslash (by simp)
    have hall : (slashed ((e :: es) :: rest) ++ ['/']).all (· = '/') = false := by
      simp [slashed, he]
    rw [hall, rstripSlash_append_slash, rstripSlash_slashed h]
    simp

/-- A mount: a normalised path other than `/`, written with or without a slash at its end. -/
structure Root where
  comps : List (List Char)
  ne_nil : comps ≠ []
  kept : ∀ c ∈ comps, Kept c
  slash : Bool

def Root.text (r : Root) : String :=
  String.ofList (pathOf r.comps ++ if r.slash then ['/'] else [])

namespace Root

theorem slash_not_mem (r : Root) : ∀ c ∈ r.comps, '/' ∉ c := fun c hc => (r.kept c hc).2.2.2

theorem pathOf_comps (r : Root) : pathOf r.comps = slashed r.comps :=
  (slashed_eq_pathOf r.ne_nil).symm

theorem rstripSlash_text (r : Root) : rstripSlash r.text.toList = slashed r.comps := by
  rw [text, String.toList_ofList, pathOf_comps]
  cases r.slash
  · simpa using rstripSlash_slashed r.kept
  · simpa [rstripSlash_append_slash] using rstripSlash_slashed r.kept

/-- Where the root's components stand in a path that its text begins. -/
theorem splitOn_of_text_isPrefix (r : Root) {path : List Char}
    (h : slashed r.comps ++ ['/'] <+: path) :
    ∃ rest, rest ≠ [] ∧ path.splitOn '/' = [] :: (r.comps ++ rest) := by
  obtain ⟨rest, rfl⟩ := h
  refine ⟨rest.splitOn '/', List.splitOn_ne_nil _ _, ?_⟩
  rw [List.append_assoc, List.singleton_append, List.splitOn_append_cons_self,
    splitOn_slashed r.slash_not_mem, List.cons_append]

/-- No text of a root begins with two slashes. -/
theorem not_begins_twoSlashes (r : Root) {path : List Char} {rest : List (List Char)}
    (h : path.splitOn '/' = [] :: (r.comps ++ rest)) {more : List Char} :
    path ≠ '/' :: '/' :: more := by
  rintro rfl
  obtain ⟨c, cs, hcs⟩ := List.exists_cons_of_ne_nil r.ne_nil
  rw [List.splitOn_cons_eq_if_modifyHead, if_pos (by simp),
    List.splitOn_cons_eq_if_modifyHead, if_pos (by simp), hcs] at h
  have hc : [] = c := (List.cons.inj (List.cons.inj h).2).1
  have hkept := r.kept c (by rw [hcs]; simp)
  exact hkept.1 hc.symm

end Root

/-- The roots of the gateway's own templates are such mounts. An account's name has letters,
digits and dashes only. -/
theorem exists_roots {user : User} (h : user.workload → Kept user.name.toList) :
    ∃ roots : List Root, envRoots user = roots.map Root.text := by
  by_cases hw : user.workload
  · refine ⟨[⟨["cvmfs".toList], by simp, by simp [Kept], false⟩,
      ⟨[user.name.toList], by simp, by simpa using h hw, false⟩], ?_⟩
    have hown : String.ofList (pathOf [user.name.toList] ++ []) = "/" ++ user.name := by
      rw [← String.toList_inj]
      simp [pathOf]
    simp only [List.map_cons, List.map_nil, envRoots, hw, if_true]
    exact congrArg (["/cvmfs", ·]) hown.symm
  · refine ⟨[⟨["work".toList], by simp, by simp [Kept], false⟩,
      ⟨["depot".toList, "cms".toList], by simp, by simp [Kept], false⟩,
      ⟨["eos".toList], by simp, by simp [Kept], false⟩,
      ⟨["cvmfs".toList], by simp, by simp [Kept], false⟩], ?_⟩
    simp only [List.map_cons, List.map_nil, envRoots, hw]
    rfl

theorem head?_of_leadingSlashes {path : List Char} (h : leadingSlashes path = ['/']) :
    path.head? = some '/' := by
  unfold leadingSlashes at h
  split at h <;> simp_all

theorem normpath_of_oneSlash {path : List Char} (h : leadingSlashes path = ['/']) :
    normpath path = pathOf (components path) := by
  simp [normpath, h, pathOf, components]

theorem normpath_of_twoSlashes {path : List Char} (h : leadingSlashes path = ['/', '/']) :
    normpath path = '/' :: '/' :: List.intercalate ['/'] (components path) := by
  simp [normpath, h, components]

theorem splitOn_pathOf {comps : List (List Char)} (h : ∀ c ∈ comps, Kept c) :
    (pathOf comps).splitOn '/' = [] :: if comps = [] then [[]] else comps := by
  by_cases hne : comps = []
  · subst hne
    simp [pathOf, List.splitOn_cons_eq_if_modifyHead]
  · rw [← slashed_eq_pathOf hne, splitOn_slashed fun c hc => (h c hc).2.2.2, if_neg hne]

namespace Root

variable (r : Root)

theorem not_isPrefix_of_twoSlashes {path : List Char} (h : leadingSlashes path = ['/', '/']) :
    ¬slashed r.comps ++ ['/'] <+: normpath path := by
  intro hpre
  obtain ⟨rest, -, hsplit⟩ := r.splitOn_of_text_isPrefix hpre
  exact r.not_begins_twoSlashes hsplit (normpath_of_twoSlashes h)

theorem ne_of_twoSlashes {path : List Char} (h : leadingSlashes path = ['/', '/']) :
    normpath path ≠ r.text.toList := by
  intro heq
  have hsplit : (slashed r.comps).splitOn '/' = [] :: (r.comps ++ []) := by
    rw [splitOn_slashed r.slash_not_mem, List.append_nil]
  rw [normpath_of_twoSlashes h, text, String.toList_ofList, pathOf_comps] at heq
  cases hslash : r.slash
  · rw [hslash] at heq
    exact r.not_begins_twoSlashes hsplit (by simpa using heq.symm)
  · have hpre : slashed r.comps ++ ['/'] <+: normpath path := by
      rw [normpath_of_twoSlashes h, heq, hslash]
      exact List.prefix_rfl
    exact r.not_isPrefix_of_twoSlashes h hpre

/-- A root's text and a slash begin the path exactly where its components are the first of the
path's, and not all of them. -/
theorem isPrefix_normpath_iff {path : List Char} (h : leadingSlashes path = ['/']) :
    slashed r.comps ++ ['/'] <+: normpath path ↔
      r.comps <+: components path ∧ components path ≠ r.comps := by
  have hkept := kept_components path
  constructor
  · intro hpre
    obtain ⟨rest, hrest, hsplit⟩ := r.splitOn_of_text_isPrefix hpre
    rw [normpath_of_oneSlash h, splitOn_pathOf hkept] at hsplit
    have hcomps := (List.cons.inj hsplit).2
    split_ifs at hcomps with hne
    · -- The root directory has one empty component, and a mount has none.
      obtain ⟨c, cs, hcs⟩ := List.exists_cons_of_ne_nil r.ne_nil
      rw [hcs, List.cons_append] at hcomps
      exact absurd (List.cons.inj hcomps).1.symm (r.kept c (by rw [hcs]; simp)).1
    · rw [hcomps]
      exact ⟨List.prefix_append _ _, fun heq => hrest (by simpa using heq)⟩
  · rintro ⟨⟨rest, hcomps⟩, hne⟩
    have hrest : rest ≠ [] := by
      rintro rfl
      exact hne (by simpa using hcomps.symm)
    obtain ⟨c, cs, rfl⟩ := List.exists_cons_of_ne_nil hrest
    have hnil : components path ≠ [] := by simp [← hcomps]
    rw [normpath_of_oneSlash h, ← slashed_eq_pathOf hnil, ← hcomps, slashed_append]
    refine (List.prefix_append_right_inj _).mpr ?_
    simp [slashed]

theorem eq_text_iff {path : List Char} (h : leadingSlashes path = ['/'])
    (hslash : r.slash = false) :
    normpath path = r.text.toList ↔ components path = r.comps := by
  have htext : r.text.toList = slashed r.comps := by
    rw [text, String.toList_ofList, pathOf_comps, hslash]
    simp
  rw [htext, normpath_of_oneSlash h]
  constructor
  · intro heq
    have hsplit := splitOn_pathOf (kept_components path)
    rw [heq, splitOn_slashed r.slash_not_mem] at hsplit
    have hcomps := (List.cons.inj hsplit).2
    split_ifs at hcomps with hne
    · exact absurd rfl (r.kept [] (by rw [hcomps]; simp)).1
    · exact hcomps.symm
  · intro heq
    rw [heq, pathOf_comps]

/-- The root of an environment: its directory, or one above it. -/
theorem on_iff {path : List Char} (h : leadingSlashes path = ['/']) :
    normpath path = r.text.toList ∨ slashed r.comps ++ ['/'] <+: normpath path ↔
      r.comps <+: components path ∧ (components path = r.comps → r.slash = false) := by
  rw [r.isPrefix_normpath_iff h]
  cases hslash : r.slash
  · rw [r.eq_text_iff h hslash]
    constructor
    · rintro (heq | ⟨hpre, -⟩)
      · exact ⟨by rw [heq], fun _ => rfl⟩
      · exact ⟨hpre, fun _ => rfl⟩
    · rintro ⟨hpre, -⟩
      by_cases heq : components path = r.comps
      · exact .inl heq
      · exact .inr ⟨hpre, heq⟩
  · constructor
    · rintro (heq | ⟨hpre, hne⟩)
      · have hpre : slashed r.comps ++ ['/'] <+: normpath path := by
          rw [heq, text, String.toList_ofList, pathOf_comps, hslash]
          exact List.prefix_rfl
        obtain ⟨hpre, hne⟩ := (r.isPrefix_normpath_iff h).mp hpre
        exact ⟨hpre, fun heq => absurd heq hne⟩
      · exact ⟨hpre, fun heq => absurd heq hne⟩
    · rintro ⟨hpre, hne⟩
      exact .inr ⟨hpre, fun heq => absurd (hne heq) (by simp)⟩

/-- The directory of a path is a root's exactly where the path is right under the root. -/
theorem dirname_eq_iff {path : List Char} (h : leadingSlashes path = ['/'])
    (hne : components path ≠ []) :
    dirname (normpath path) = rstripSlash r.text.toList ↔
      ∃ c, components path = r.comps ++ [c] := by
  have hkept := kept_components path
  rw [r.rstripSlash_text, normpath_of_oneSlash h, ← slashed_eq_pathOf hne]
  obtain hnil | ⟨front, c, hlast⟩ := List.eq_nil_or_concat (components path)
  · exact absurd hnil hne
  rw [List.concat_eq_append] at hlast
  rw [hlast] at hkept ⊢
  have hfront : ∀ d ∈ front, Kept d := fun d hd => hkept d (by simp [hd])
  rw [dirname_slashed hfront (hkept c (by simp)).2.2.2]
  constructor
  · intro heq
    split_ifs at heq with hnil
    · have hsplit : [[], []] = [] :: r.comps := by
        rw [← splitOn_slashed r.slash_not_mem, ← heq]
        rfl
      exact absurd rfl (r.kept [] (by rw [← (List.cons.inj hsplit).2]; simp)).1
    · exact ⟨c, by rw [slashed_inj (fun d hd => (hfront d hd).2.2.2) r.slash_not_mem heq]⟩
  · rintro ⟨d, heq⟩
    obtain ⟨rfl, -⟩ := List.append_inj' heq rfl
    rw [if_neg r.ne_nil]

end Root

section Accepted

variable {roots : List Root} {value path : String}

/-- An environment is accepted exactly where it begins with one slash, or three and more, and
its components begin with those of a root. -/
theorem mountedOn_eq_ok :
    mountedOn (roots.map Root.text) value = .ok path ↔
      leadingSlashes value.toList = ['/'] ∧
        path = String.ofList (pathOf (components value.toList)) ∧
        ∃ r ∈ roots, r.comps <+: components value.toList ∧
          (components value.toList = r.comps → r.slash = false) := by
  have hany : ((roots.map Root.text).any fun root =>
      decide (normpath value.toList = root.toList) ||
        (rstripSlash root.toList ++ ['/']).isPrefixOf (normpath value.toList)) = true ↔
      ∃ r ∈ roots, normpath value.toList = r.text.toList ∨
        slashed r.comps ++ ['/'] <+: normpath value.toList := by
    simp [List.any_eq_true, Root.rstripSlash_text]
  unfold mountedOn
  dsimp only
  constructor
  · intro h
    split_ifs at h with hc
    obtain ⟨hhead, hmounted⟩ := hc
    obtain ⟨r, hr, hon⟩ := hany.mp hmounted
    have hone : leadingSlashes value.toList = ['/'] := by
      rcases leadingSlashes_of_rooted hhead with hone | htwo
      · exact hone
      · rcases hon with heq | hpre
        · exact absurd heq (r.ne_of_twoSlashes htwo)
        · exact absurd hpre (r.not_isPrefix_of_twoSlashes htwo)
    refine ⟨hone, ?_, r, hr, (r.on_iff hone).mp hon⟩
    rw [← normpath_of_oneSlash hone]
    exact (Except.ok.inj h).symm
  · rintro ⟨hone, rfl, r, hr, hon⟩
    have hmounted := hany.mpr ⟨r, hr, (r.on_iff hone).mpr hon⟩
    rw [if_pos ⟨head?_of_leadingSlashes hone, hmounted⟩, normpath_of_oneSlash hone]

theorem any_root_eq_false (path : List Char) :
    ((roots.map Root.text).any fun root =>
      (rstripSlash root.toList ++ ['/']).isPrefixOf path) = false ↔
      ∀ r ∈ roots, ¬slashed r.comps ++ ['/'] <+: path := by
  simp [List.any_eq_false, Root.rstripSlash_text]

/-- A path below a root is made at the top of one exactly where it is right under one. -/
theorem any_top_iff {path : List Char} (hone : leadingSlashes path = ['/']) {r : Root}
    (hpre : r.comps <+: components path) :
    ((roots.map Root.text).any fun root =>
      decide (dirname (normpath path) = rstripSlash root.toList)) = true ↔
      ∃ r ∈ roots, ∃ c, components path = r.comps ++ [c] := by
  have hne : components path ≠ [] := fun hnil => r.ne_nil (List.prefix_nil.mp (hnil ▸ hpre))
  simp [List.any_eq_true, Root.dirname_eq_iff _ hone hne]

theorem dataPathOn_eq_some {header : String} {made : Bool} :
    dataPathOn (roots.map Root.text) header made value = .ok (some path) ↔
      leadingSlashes value.toList = ['/'] ∧
        path = String.ofList (pathOf (components value.toList)) ∧
        (∃ r ∈ roots, r.comps <+: components value.toList ∧ components value.toList ≠ r.comps) ∧
        (made → ∀ r ∈ roots, ∀ c, components value.toList ≠ r.comps ++ [c]) := by
  unfold dataPathOn
  dsimp only
  constructor
  · intro h
    split_ifs at h with hempty hout hmade
    · cases Except.ok.inj h
    obtain ⟨hhead, r, hr, hpre⟩ : value.toList.head? = some '/' ∧
        ∃ r ∈ roots, slashed r.comps ++ ['/'] <+: normpath value.toList := by
      rw [any_root_eq_false] at hout
      push Not at hout
      exact hout
    have hone : leadingSlashes value.toList = ['/'] :=
      (leadingSlashes_of_rooted hhead).resolve_right fun htwo =>
        r.not_isPrefix_of_twoSlashes htwo hpre
    obtain ⟨hfirst, hproper⟩ := (r.isPrefix_normpath_iff hone).mp hpre
    refine ⟨hone, ?_, ⟨r, hr, hfirst, hproper⟩, ?_⟩
    · rw [← normpath_of_oneSlash hone]
      exact (Option.some.inj (Except.ok.inj h)).symm
    · intro hm s hs c heq
      exact hmade ⟨hm, (any_top_iff hone hfirst).mpr ⟨s, hs, c, heq⟩⟩
  · rintro ⟨hone, rfl, ⟨r, hr, hfirst, hproper⟩, hout⟩
    have hhead := head?_of_leadingSlashes hone
    have hempty : value ≠ "" := by
      rintro rfl
      exact absurd hhead (by simp)
    have hpre := (r.isPrefix_normpath_iff hone).mpr ⟨hfirst, hproper⟩
    rw [if_neg hempty, if_neg, if_neg, normpath_of_oneSlash hone]
    · rintro ⟨hm, htops⟩
      obtain ⟨s, hs, c, heq⟩ := (any_top_iff hone hfirst).mp htops
      exact hout hm s hs c heq
    · rintro (hno | hnone)
      · exact hno hhead
      · exact (any_root_eq_false _).mp hnone r hr hpre

/-- Named again, an accepted path has the components it had. -/
theorem components_pathOf {comps : List (List Char)} (h : ∀ c ∈ comps, Kept c) :
    components (pathOf comps) = comps := by
  have hfold := foldl_splitOn_intercalate (.inl rfl) h
  rw [List.singleton_append] at hfold
  rw [components, pathOf, hfold, List.reverse_reverse]

theorem leadingSlashes_pathOf {comps : List (List Char)} (h : ∀ c ∈ comps, Kept c) :
    leadingSlashes (pathOf comps) = ['/'] :=
  leadingSlashes_append (.inl rfl) (head?_intercalate h)

theorem mountedOn_again (h : mountedOn (roots.map Root.text) value = .ok path) :
    mountedOn (roots.map Root.text) path = .ok path := by
  obtain ⟨-, rfl, hroot⟩ := mountedOn_eq_ok.mp h
  have hkept := kept_components value.toList
  refine mountedOn_eq_ok.mpr ⟨?_, ?_, ?_⟩
  · rw [String.toList_ofList, leadingSlashes_pathOf hkept]
  · rw [String.toList_ofList, components_pathOf hkept]
  · rwa [String.toList_ofList, components_pathOf hkept]

theorem refused_of_ne_ok {α : Type} {answer : Except Refused α} (h : ∀ a, answer ≠ .ok a) :
    ∃ refused, answer = .error refused := by
  cases answer with
  | ok a => exact absurd rfl (h a)
  | error refused => exact ⟨refused, rfl⟩

end Accepted

/-- At a root or below it, by components that each name something. -/
def At (r : Root) (path : String) : Prop :=
  ∃ rest, path.toList = pathOf (r.comps ++ rest) ∧ ∀ c ∈ rest, Kept c

def Below (r : Root) (path : String) : Prop :=
  ∃ rest, rest ≠ [] ∧ path.toList = pathOf (r.comps ++ rest) ∧ ∀ c ∈ rest, Kept c

def ChildOf (r : Root) (path : String) : Prop :=
  ∃ c, path.toList = pathOf (r.comps ++ [c]) ∧ Kept c

/-- No root has a value: it does not begin at the root, it keeps two slashes, or its components
are of no root. -/
def Elsewhere (roots : List Root) (value : String) : Prop :=
  value.toList.head? ≠ some '/' ∨ leadingSlashes value.toList = ['/', '/'] ∨
    ∀ r ∈ roots, ¬r.comps <+: components value.toList

section Calls

variable {roots : List Root} {value path : String}

theorem at_of_mountedOn (h : mountedOn (roots.map Root.text) value = .ok path) :
    ∃ r ∈ roots, At r path := by
  obtain ⟨-, rfl, r, hr, ⟨rest, hrest⟩, -⟩ := mountedOn_eq_ok.mp h
  have hkept := kept_components value.toList
  rw [← hrest] at hkept
  refine ⟨r, hr, rest, ?_, fun c hc => hkept c (List.mem_append_right _ hc)⟩
  rw [String.toList_ofList, hrest]

theorem below_of_dataPathOn {header : String} {made : Bool}
    (h : dataPathOn (roots.map Root.text) header made value = .ok (some path)) :
    (∃ r ∈ roots, Below r path) ∧ (made → ∀ r ∈ roots, ¬ChildOf r path) := by
  obtain ⟨-, rfl, ⟨r, hr, ⟨rest, hrest⟩, hne⟩, hmade⟩ := dataPathOn_eq_some.mp h
  have hkept := kept_components value.toList
  refine ⟨⟨r, hr, rest, ?_, ?_, ?_⟩, ?_⟩
  · rintro rfl
    exact hne (by simpa using hrest.symm)
  · rw [String.toList_ofList, hrest]
  · rw [← hrest] at hkept
    exact fun c hc => hkept c (List.mem_append_right _ hc)
  · rintro hm s hs ⟨c, heq, hc⟩
    have hchild : ∀ d ∈ s.comps ++ [c], Kept d := by
      intro d hd
      rcases List.mem_append.mp hd with hd | hd
      · exact s.kept d hd
      · rwa [List.mem_singleton.mp hd]
    have hcomps : components value.toList = s.comps ++ [c] := by
      rw [← components_pathOf hkept, ← components_pathOf hchild, ← heq, String.toList_ofList]
    exact hmade hm s hs c hcomps

theorem not_elsewhere {r : Root} (hone : leadingSlashes value.toList = ['/']) (hr : r ∈ roots)
    (hpre : r.comps <+: components value.toList) : ¬Elsewhere roots value := by
  rintro (hhead | htwo | hnone)
  · exact hhead (head?_of_leadingSlashes hone)
  · rw [hone] at htwo
    cases htwo
  · exact hnone r hr hpre

theorem not_mountedOn_of_elsewhere (h : Elsewhere roots value) :
    mountedOn (roots.map Root.text) value ≠ .ok path := by
  intro hok
  obtain ⟨hone, -, r, hr, hpre, -⟩ := mountedOn_eq_ok.mp hok
  exact not_elsewhere hone hr hpre h

theorem not_dataPathOn_of_elsewhere {header : String} {made : Bool} {found : Option String}
    (h : Elsewhere roots value) (hne : value ≠ "") :
    dataPathOn (roots.map Root.text) header made value ≠ .ok found := by
  intro hok
  cases found with
  | none =>
    unfold dataPathOn at hok
    dsimp only at hok
    rw [if_neg hne] at hok
    split_ifs at hok
    cases Except.ok.inj hok
  | some path =>
    obtain ⟨hone, -, ⟨r, hr, hpre, -⟩, -⟩ := dataPathOn_eq_some.mp hok
    exact not_elsewhere hone hr hpre h

theorem dataPathsOn_eq_ok {texts : List String} {inputs output : String}
    {read written : Option String} :
    dataPathsOn texts inputs output = .ok (read, written) ↔
      dataPathOn texts "af-inputs" false inputs = .ok read ∧
        dataPathOn texts "af-output" true output = .ok written := by
  constructor
  · intro h
    obtain ⟨r, hread, h⟩ := except_bind_ok h
    obtain ⟨w, hwritten, h⟩ := except_bind_ok h
    obtain ⟨rfl, rfl⟩ := Prod.mk.inj (Except.ok.inj h)
    exact ⟨hread, hwritten⟩
  · rintro ⟨hread, hwritten⟩
    simp only [dataPathsOn, hread, hwritten, ok_bind]
    rfl

theorem below_of_dataPathsOn {inputs output : String} {read written : Option String}
    (h : dataPathsOn (roots.map Root.text) inputs output = .ok (read, written)) :
    (∀ path ∈ read, ∃ r ∈ roots, Below r path) ∧
      ∀ path ∈ written, (∃ r ∈ roots, Below r path) ∧ ∀ r ∈ roots, ¬ChildOf r path := by
  obtain ⟨hread, hwritten⟩ := dataPathsOn_eq_ok.mp h
  refine ⟨?_, ?_⟩
  · rintro path rfl
    exact (below_of_dataPathOn hread).1
  · rintro path rfl
    obtain ⟨hbelow, hchild⟩ := below_of_dataPathOn hwritten
    exact ⟨hbelow, hchild rfl⟩

theorem requestedOn_again {env : String} (hne : value ≠ "")
    (h : requestedOn (roots.map Root.text) value = .ok env) :
    mountedOn (roots.map Root.text) env = .ok env := by
  rw [requestedOn, if_neg hne] at h
  exact mountedOn_again h

end Calls

theorem mountedEnv_of_caller {serviceToken : String} {userFor : String → Except Refused User}
    {values : Dict String String} {user : User} {shape : Shape}
    (h : caller serviceToken userFor values = .ok (user, shape)) (hsite : shape.site = "purdue")
    (hnamed : setting values "af-env" ≠ "") : mountedEnv shape.env user = .ok shape.env := by
  obtain ⟨-, -, -, -, hshape⟩ := caller_eq_ok.mp ⟨h, hsite⟩
  obtain ⟨-, henv, -⟩ := purdueShape_eq_ok.mp hshape
  rw [requestedEnv, if_neg hnamed] at henv
  exact mountedEnv_idem henv

/-- The storage of a user's own template: the roots are its mounts, and the checks of a call are
those of these roots. -/
theorem roots_of_user {user : User} (hscratch : user.name ≠ "log-volume")
    (hname : user.workload → Kept user.name.toList) :
    ∃ own : List Root, rootsOf (clusterTemplate user) = own.map Root.text ∧
      (∀ value, requestedEnv value user = requestedOn (own.map Root.text) value ∧
        mountedEnv value user = mountedOn (own.map Root.text) value) ∧
      ∀ inputs output,
        dataPaths user inputs output = dataPathsOn (own.map Root.text) inputs output := by
  obtain ⟨own, hown⟩ := exists_roots hname
  refine ⟨own, (rootsOf_clusterTemplate hscratch).trans hown, fun value => ⟨?_, ?_⟩, ?_⟩
  · rw [requestedEnv_eq, hown]
  · rw [mountedEnv_eq, hown]
  · intro inputs output
    rw [dataPaths_eq, hown]

/-- Every path a call may name is on storage its pods mount: an environment at a root or below
it, a job's directories below one, and what it writes not right under one. A path that was
accepted is accepted again as it is, so the checks before a cluster and a submission find an
environment that the caller named where its first check left it. The mounts of a user's own
template are such roots, and a call's checks are those of them. -/
theorem paths_stay_mounted (roots : List Root) (value : String) :
    (∀ path, mountedOn (roots.map Root.text) value = .ok path →
      (∃ r ∈ roots, At r path) ∧ mountedOn (roots.map Root.text) path = .ok path) ∧
    (∀ inputs output read written,
      dataPathsOn (roots.map Root.text) inputs output = .ok (read, written) →
      (∀ path ∈ read, ∃ r ∈ roots, Below r path) ∧
        ∀ path ∈ written, (∃ r ∈ roots, Below r path) ∧ ∀ r ∈ roots, ¬ChildOf r path) ∧
    (Elsewhere roots value →
      (∃ refused, mountedOn (roots.map Root.text) value = .error refused) ∧
        (value ≠ "" → ∀ other,
          (∃ refused, dataPathsOn (roots.map Root.text) value other = .error refused) ∧
            ∃ refused, dataPathsOn (roots.map Root.text) other value = .error refused)) ∧
    (∀ env, value ≠ "" → requestedOn (roots.map Root.text) value = .ok env →
      mountedOn (roots.map Root.text) env = .ok env) ∧
    (∀ serviceToken userFor values user shape,
      caller serviceToken userFor values = .ok (user, shape) → shape.site = "purdue" →
        setting values "af-env" ≠ "" → mountedEnv shape.env user = .ok shape.env) ∧
    ∀ user : User, user.name ≠ "log-volume" → (user.workload → Kept user.name.toList) →
      ∃ own : List Root, rootsOf (clusterTemplate user) = own.map Root.text ∧
        (∀ value, requestedEnv value user = requestedOn (own.map Root.text) value ∧
          mountedEnv value user = mountedOn (own.map Root.text) value) ∧
        ∀ inputs output,
          dataPaths user inputs output = dataPathsOn (own.map Root.text) inputs output := by
  refine ⟨fun path h => ⟨at_of_mountedOn h, mountedOn_again h⟩,
    fun _ _ _ _ h => below_of_dataPathsOn h, ?_, fun env hne h => requestedOn_again hne h,
    fun _ _ _ _ _ h hsite hnamed => mountedEnv_of_caller h hsite hnamed,
    fun _ => roots_of_user⟩
  intro helse
  refine ⟨refused_of_ne_ok fun path => not_mountedOn_of_elsewhere helse, ?_⟩
  intro hne other
  refine ⟨refused_of_ne_ok ?_, refused_of_ne_ok ?_⟩
  · rintro ⟨read, written⟩ h
    exact not_dataPathOn_of_elsewhere helse hne (dataPathsOn_eq_ok.mp h).1
  · rintro ⟨read, written⟩ h
    exact not_dataPathOn_of_elsewhere helse hne (dataPathsOn_eq_ok.mp h).2

/-- `/work/`, with the slash at its end. -/
def workRoot : Root where
  comps := ["work".toList]
  ne_nil := by decide
  kept := by simp [Kept]
  slash := true

theorem paths_stay_mounted_work :
    (∃ r ∈ [workRoot], At r "/work/users/env") ∧ (∃ r ∈ [workRoot], Below r "/work/users/out") ∧
      (∃ refused, mountedOn ["/work/"] "/work/../etc" = .error refused) ∧
      ∃ refused, mountedOn ["/work/"] "/workx" = .error refused := by
  have htexts : [workRoot].map Root.text = ["/work/"] := by decide
  have hexit : Elsewhere [workRoot] "/work/../etc" := .inr (.inr (by decide))
  have hbeside : Elsewhere [workRoot] "/workx" := .inr (.inr (by decide))
  obtain ⟨hmounted, -⟩ := paths_stay_mounted [workRoot] "/work//users/./x/../env/"
  obtain ⟨-, hdata, -⟩ := paths_stay_mounted [workRoot] ""
  obtain ⟨-, -, hrefused, -⟩ := paths_stay_mounted [workRoot] "/work/../etc"
  obtain ⟨-, -, hrefused', -⟩ := paths_stay_mounted [workRoot] "/workx"
  rw [htexts] at hmounted hdata hrefused hrefused'
  have hwritten : dataPathsOn ["/work/"] "" "/work/users/out" =
      .ok (none, some "/work/users/out") := by rfl
  exact ⟨(hmounted "/work/users/env" (by rfl)).1, ((hdata _ _ _ _ hwritten).2 _ rfl).1,
    (hrefused hexit).1, (hrefused' hbeside).1⟩

example : (mountedOn ["/work"] "//work/users").toOption = none := by decide

end PurdueAF.Ray

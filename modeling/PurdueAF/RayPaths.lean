import PurdueAF.FileTree
import PurdueAF.RayConfig

/-!
# Paths on the storage a cluster mounts
-/
namespace PurdueAF.Ray

/-- One component of `posixpath.normpath`, with the components kept so far, last first. -/
def normComponent (rooted : Bool) (kept : List (List Char)) (comp : List Char) :
    List (List Char) :=
  if comp = [] ∨ comp = ['.'] then kept
  else if comp ≠ ['.', '.'] ∨ (rooted = false ∧ kept = []) ∨ kept.head? = some ['.', '.'] then
    comp :: kept
  else kept.tail

/-- POSIX lets a path keep two leading slashes, and no other number above one. -/
def leadingSlashes : List Char → List Char
  | '/' :: '/' :: '/' :: _ => ['/']
  | '/' :: '/' :: _ => ['/', '/']
  | '/' :: _ => ['/']
  | _ => []

def normpath (path : List Char) : List Char :=
  let slashes := leadingSlashes path
  let comps := ((path.splitOn '/').foldl (normComponent (slashes ≠ [])) []).reverse
  let out := slashes ++ List.intercalate ['/'] comps
  if out = [] then ['.'] else out

def rstripSlash (root : List Char) : List Char := (root.reverse.dropWhile (· = '/')).reverse

/-- The mounts of `raycluster.yaml` that are no scratch; of a workload account's template
those of the volumes it keeps, and its own. -/
def envRoots (user : User) : List String :=
  if user.workload then ["/cvmfs", "/" ++ user.name] else ["/work", "/depot/cms", "/eos", "/cvmfs"]

def mountedEnv (value : String) (user : User) : Except Refused String :=
  let path := normpath value.toList
  let onRoot (root : String) : Bool :=
    path = root.toList || (rstripSlash root.toList ++ ['/']).isPrefixOf path
  if value.toList.head? = some '/' ∧ (envRoots user).any onRoot then .ok (String.ofList path)
  else .error ⟨.invalidArgument, value ++ " is not on storage your Ray cluster mounts: " ++
    ", ".intercalate (envRoots user) ++ "."⟩

def dirname (path : List Char) : List Char :=
  let head := (path.reverse.dropWhile (· ≠ '/')).reverse
  if head.all (· = '/') then head else rstripSlash head

/-- One of the directories of `data_paths`, by its header; the one a job writes is not made at
the top of a root. -/
def dataPath (user : User) (header : String) (made : Bool) (value : String) :
    Except Refused (Option String) :=
  let path := normpath value.toList
  let inRoot (root : String) : Bool := (rstripSlash root.toList ++ ['/']).isPrefixOf path
  let top := dirname path
  if value = "" then .ok none
  else if value.toList.head? ≠ some '/' ∨ (envRoots user).any inRoot = false then
    .error ⟨.invalidArgument, header ++ ": " ++ value ++ " is not on storage your jobs mount: " ++
      ", ".intercalate (envRoots user) ++ "."⟩
  else if made ∧ (envRoots user).any fun root => top = rstripSlash root.toList then
    .error ⟨.invalidArgument, header ++ ": " ++ value ++ " would be made at the top of " ++
      String.ofList top ++
      ", which is shared: name a directory inside your own, such as one under /work/users."⟩
  else .ok (some (String.ofList path))

/-- The directories of AF storage a job reads and writes. -/
def dataPaths (user : User) (inputs output : String) :
    Except Refused (Option String × Option String) := do
  let read ← dataPath user "af-inputs" false inputs
  let written ← dataPath user "af-output" true output
  return (read, written)

/-- A component that a rooted path keeps: no end of one, no way up, no slash. -/
def Kept (comp : List Char) : Prop := comp ≠ [] ∧ comp ≠ ['.'] ∧ comp ≠ ['.', '.'] ∧ '/' ∉ comp

theorem normComponent_of_kept {comp : List Char} (h : Kept comp) (kept : List (List Char)) :
    normComponent true kept comp = comp :: kept := by
  obtain ⟨hne, hdot, hup, -⟩ := h
  simp [normComponent, hne, hdot, hup]

theorem foldl_normComponent_of_kept {comps : List (List Char)} (kept : List (List Char))
    (h : ∀ c ∈ comps, Kept c) :
    comps.foldl (normComponent true) kept = comps.reverse ++ kept := by
  induction comps generalizing kept with
  | nil => rfl
  | cons c rest ih =>
    have hc : Kept c := h c (by simp)
    have hrest : ∀ d ∈ rest, Kept d := fun d hd => h d (by simp [hd])
    simp [normComponent_of_kept hc, ih _ hrest]

theorem kept_normComponent {kept : List (List Char)} {comp : List Char}
    (hk : ∀ c ∈ kept, Kept c) (hc : '/' ∉ comp) : ∀ c ∈ normComponent true kept comp, Kept c := by
  have hup : kept.head? ≠ some ['.', '.'] := by
    intro h
    exact (hk _ (List.mem_of_mem_head? h)).2.2.1 rfl
  unfold normComponent
  split_ifs with hdrop hkeep
  · exact hk
  · intro c hcm
    rcases List.mem_cons.mp hcm with rfl | hmem
    · have hne : c ≠ ['.', '.'] := by
        rcases hkeep with h | ⟨h, -⟩ | h
        · exact h
        · cases h
        · exact absurd h hup
      exact ⟨fun h => hdrop (.inl h), fun h => hdrop (.inr h), hne, hc⟩
    · exact hk c hmem
  · exact fun c hcm => hk c (List.mem_of_mem_tail hcm)

theorem kept_foldl {comps kept : List (List Char)} (hk : ∀ c ∈ kept, Kept c)
    (hc : ∀ c ∈ comps, '/' ∉ c) : ∀ c ∈ comps.foldl (normComponent true) kept, Kept c := by
  induction comps generalizing kept with
  | nil => exact hk
  | cons c rest ih =>
    have hc' : '/' ∉ c := hc c (by simp)
    exact ih (kept_normComponent hk hc') fun d hd => hc d (by simp [hd])

theorem leadingSlashes_of_rooted {path : List Char} (h : path.head? = some '/') :
    leadingSlashes path = ['/'] ∨ leadingSlashes path = ['/', '/'] := by
  obtain ⟨rest, rfl⟩ : ∃ rest, path = '/' :: rest := by
    cases path with
    | nil => cases h
    | cons c rest => exact ⟨rest, by rw [Option.some.inj h]⟩
  unfold leadingSlashes
  split <;> simp_all

theorem leadingSlashes_append {slashes rest : List Char}
    (hs : slashes = ['/'] ∨ slashes = ['/', '/']) (hr : rest.head? ≠ some '/') :
    leadingSlashes (slashes ++ rest) = slashes := by
  rcases hs with rfl | rfl <;> rcases rest with _ | ⟨c, rest⟩ <;> simp_all [leadingSlashes]

theorem head?_intercalate {comps : List (List Char)} (h : ∀ c ∈ comps, Kept c) :
    (List.intercalate ['/'] comps).head? ≠ some '/' := by
  cases comps with
  | nil => simp
  | cons c rest =>
    obtain ⟨hne, -, -, hslash⟩ := h c (by simp)
    obtain ⟨d, ds, rfl⟩ := List.exists_cons_of_ne_nil hne
    have hd : d ≠ '/' := by
      rintro rfl
      exact hslash (by simp)
    cases rest with
    | nil => simpa using hd
    | cons e es => simpa [List.intercalate] using hd

/-- The components of a joined path are those joined, and empty ones at the slashes before them. -/
theorem foldl_splitOn_intercalate {slashes : List Char} {comps : List (List Char)}
    (hs : slashes = ['/'] ∨ slashes = ['/', '/']) (h : ∀ c ∈ comps, Kept c) :
    ((slashes ++ List.intercalate ['/'] comps).splitOn '/').foldl (normComponent true) [] =
      comps.reverse := by
  have hrest : ((List.intercalate ['/'] comps).splitOn '/').foldl (normComponent true) [] =
      comps.reverse := by
    cases comps with
    | nil => simp [normComponent]
    | cons c rest =>
      rw [List.splitOn_intercalate '/' (fun d hd => (h d hd).2.2.2) (by simp)]
      simpa using foldl_normComponent_of_kept [] h
  have hstep : ∀ path : List Char, (('/' :: path).splitOn '/').foldl (normComponent true) [] =
      (path.splitOn '/').foldl (normComponent true) [] := by
    intro path
    rw [List.splitOn_cons_eq_if_modifyHead, if_pos (by simp)]
    simp [normComponent]
  rcases hs with rfl | rfl
  · exact (hstep _).trans hrest
  · exact (hstep _).trans ((hstep _).trans hrest)

/-- What `normpath` makes of a path from the root: its slashes and the components it keeps. -/
theorem normpath_of_rooted {path : List Char} (h : path.head? = some '/') :
    ∃ slashes comps, (slashes = ['/'] ∨ slashes = ['/', '/']) ∧ (∀ c ∈ comps, Kept c) ∧
      normpath path = slashes ++ List.intercalate ['/'] comps := by
  have hs := leadingSlashes_of_rooted h
  have hne : leadingSlashes path ≠ [] := by rcases hs with h | h <;> simp [h]
  have hk : ∀ c ∈ (path.splitOn '/').foldl (normComponent true) [], Kept c :=
    kept_foldl (by simp) fun c hc => FileTree.notMem_of_mem_splitOn hc
  refine ⟨_, _, hs, fun c hc => hk c (List.mem_reverse.mp hc), ?_⟩
  simp [normpath, hne]

theorem normpath_join {slashes : List Char} {comps : List (List Char)}
    (hs : slashes = ['/'] ∨ slashes = ['/', '/']) (h : ∀ c ∈ comps, Kept c) :
    normpath (slashes ++ List.intercalate ['/'] comps) =
      slashes ++ List.intercalate ['/'] comps := by
  have hlead := leadingSlashes_append hs (head?_intercalate h)
  have hne : slashes ≠ [] := by rcases hs with rfl | rfl <;> simp
  simp only [normpath, hlead]
  simp [hne, foldl_splitOn_intercalate hs h]

theorem normpath_normpath {path : List Char} (h : path.head? = some '/') :
    normpath (normpath path) = normpath path := by
  obtain ⟨slashes, comps, hs, hk, heq⟩ := normpath_of_rooted h
  rw [heq]
  exact normpath_join hs hk

theorem head?_normpath {path : List Char} (h : path.head? = some '/') :
    (normpath path).head? = some '/' := by
  obtain ⟨slashes, comps, hs, -, heq⟩ := normpath_of_rooted h
  rw [heq]
  rcases hs with rfl | rfl <;> rfl

/-- An environment the gateway names is one it takes again, under the same name. -/
theorem mountedEnv_idem {value env : String} {user : User} (h : mountedEnv value user = .ok env) :
    mountedEnv env user = .ok env := by
  unfold mountedEnv at h
  dsimp only at h
  split_ifs at h with hc
  obtain rfl := Except.ok.inj h
  obtain ⟨hroot, hmounted⟩ := hc
  simp only [mountedEnv, String.toList_ofList, normpath_normpath hroot, head?_normpath hroot,
    hmounted, and_self, if_true]

end PurdueAF.Ray

import PurdueAF.ModelArchiveForms
import PurdueAF.ModelRepository
import PurdueAF.PatternScan
import PurdueAF.Utf8

/-!
# What a model directory must hold

`validate_model_dir` collects the errors that block an upload and the warnings that do not. It
finds no error exactly in a directory that is laid out for Triton, so that every model that the
repository comes to show is.
-/
namespace PurdueAF.ModelUploads
open FileTree Py PatternScan

inductive Kind
  | file | dir | any
  deriving DecidableEq, Repr

def platformArtifacts : List (Name × Name × Kind) :=
  [("tensorrt_plan".toList, "model.plan".toList, .file),
   -- a directory where the ONNX model has external data
   ("onnxruntime_onnx".toList, "model.onnx".toList, .any),
   ("tensorflow_savedmodel".toList, "model.savedmodel".toList, .dir),
   ("tensorflow_graphdef".toList, "model.graphdef".toList, .file),
   ("pytorch_libtorch".toList, "model.pt".toList, .file),
   ("openvino".toList, "model.xml".toList, .file),
   ("python".toList, "model.py".toList, .file),
   ("dali".toList, "model.dali".toList, .file)]

/-- A backend that accepts several layouts has no artifact. -/
def backendArtifacts : List (Name × Option (Name × Kind)) :=
  [("tensorrt".toList, some ("model.plan".toList, .file)),
   ("onnxruntime".toList, some ("model.onnx".toList, .any)),
   ("pytorch".toList, some ("model.pt".toList, .file)),
   ("openvino".toList, some ("model.xml".toList, .file)),
   ("python".toList, some ("model.py".toList, .file)),
   ("dali".toList, some ("model.dali".toList, .file)),
   ("tensorflow".toList, none), ("fil".toList, none), ("vllm".toList, none)]

/-- The platform by the file's name, for a directory without a config. -/
def artifactPlatforms : List (Name × Name) := platformArtifacts.map fun e => (e.2.1, e.1)

def autocompletePlatforms : List Name :=
  ["tensorrt_plan".toList, "onnxruntime_onnx".toList, "tensorflow_savedmodel".toList,
   "pytorch_libtorch".toList, "python".toList]

/-- A platform without files of its own. -/
def ensemble : Name := "ensemble".toList

structure ValidationResult where
  errors : List String := []
  warnings : List String := []
  platform : Name := []
  versions : List Name := []
  deriving DecidableEq, Repr

def ValidationResult.ok (r : ValidationResult) : Bool := r.errors.isEmpty

/-- `re.sub(r"#[^\n]*", "", text)`. -/
def stripComments : Bool → Text → Text
  | _, [] => []
  | true, c :: text => if c = '\n' then c :: stripComments false text else stripComments true text
  | false, c :: text =>
    if c = '#' then stripComments true text else c :: stripComments false text

/-- A field with its quoted value, after `start`. -/
def scalarPattern (start : List PatternScan.Item) (field : String) : Pattern :=
  ⟨start ++ lit field ++ [.many isSpace, .one (· = ':'), .many isSpace, .one (· = '"')],
    [.many (· ≠ '"')], [.one (· = '"')]⟩

/-- An unindented match is top-level; the first anywhere stands in for it. -/
def scalar (text : Text) (field : String) : Option Text :=
  ((scalarPattern [.lineStart] field).found text).head? |>.or
    ((scalarPattern [.lineStart, .many isSpace] field).found text).head?

/-- What `validate_model_dir` takes from `config.pbtxt`, stripped. -/
structure Config where
  error : Option String := none
  name : Name := []
  platform : Name := []
  backend : Name := []
  defaultModelFilename : Name := []
  deriving DecidableEq, Repr

/-- `read` gives a file's text, or the error that reading it raises. -/
def parseConfig (read : List UInt8 → Except String Text) (bytes : List UInt8) : Config :=
  match read bytes with
  | .error e => { error := some e }
  | .ok text =>
    let text := stripComments false text
    let field (name : String) := stripSpace ((scalar text name).getD [])
    ⟨none, field "name", field "platform", field "backend", field "default_model_filename"⟩

/-- From the directory at `pos` along the parts; what leads above the model's directory is not
part of the upload, and `above` finds it. -/
def walk (above : List Name → Option Node) (d : Disk Name) : List Name → List Name → Option Node
  | pos, [] => if pos = [] then some .dir else d.get? pos
  | pos, part :: parts =>
    if pos ≠ [] ∧ isDir d pos = false then none
    else if part = ['.', '.'] then
      if pos = [] then above parts else walk above d pos.dropLast parts
    else walk above d (pos ++ [part]) parts

/-- What a path leads to that does not stay in the model's directory: an absolute one, or one with
these parts after its parent. -/
structure Outside where
  absolute : Name → Option Node
  above : List Name → Option Node

/-- `version_dir / name`. -/
def lookIn (outside : Outside) (d : Disk Name) (version name : Name) : Option Node :=
  if name.head? = some '/' then outside.absolute name
  else walk outside.above d [version] ((name.splitOn '/').filter fun p => p ≠ [] ∧ p ≠ ['.'])

def Kind.fits : Kind → Node → Bool
  | .any, _ => true
  | .dir, node => node = .dir
  | .file, node => node ≠ .dir

def nameLe (a b : Name) : Bool := String.ofList a ≤ String.ofList b

/-- `Path.suffix`. -/
def suffixOf (name : Name) : Name :=
  let tail := name.reverse.takeWhile (· ≠ '.')
  if tail = [] ∨ name.length ≤ tail.length + 1 then [] else '.' :: tail.reverse

/-- `int` of a version's name. -/
def versionNumber (name : Name) : ℕ := name.foldl (fun n c => 10 * n + (c.toNat - 48)) 0

section Validate
variable (read : List UInt8 → Except String Text) (outside : Outside) (d : Disk Name)

def configOf : Option Config :=
  match d.get? ["config.pbtxt".toList] with
  | some (.file bytes) => some (parseConfig read bytes)
  | _ => none

def entriesOf : List Name := (children d []).mergeSort nameLe

def versionDirs : List Name := (entriesOf d).filter fun v => isDir d [v] && isVersionName v

def inferPlatform (version : Name) : Name :=
  ((artifactPlatforms.find? fun e => (d.get? [version, e.1]).isSome).map (·.2)).getD []

/-- The platform that the config names, or the one that the first version's files tell. -/
def platformOf : Name :=
  let config := (configOf read d).getD {}
  if config.platform = [] ∧ config.backend = [] ∧ config.defaultModelFilename = [] then
    inferPlatform d ((versionDirs d).headD [])
  else config.platform

/-- The file Triton will look for inside a version. -/
def expectedArtifact : Option (Name × Kind) :=
  let config := (configOf read d).getD {}
  let platform := platformOf read d
  if config.defaultModelFilename ≠ [] then some (config.defaultModelFilename, .any)
  else if platform ≠ [] ∧ (platformArtifacts.lookup platform).isSome then
    platformArtifacts.lookup platform
  else if config.backend ≠ [] then (backendArtifacts.lookup config.backend).join
  else none

def shown (name : Name) : String := String.ofList name

def configErrors (modelName : Name) : List String :=
  match configOf read d with
  | none => []
  | some config =>
    (config.error.map fun e => "config.pbtxt could not be read: " ++ e).toList ++
    if config.name ≠ [] ∧ config.name ≠ modelName then
      ["config.pbtxt declares name: \"" ++ shown config.name ++ "\", but the model is being " ++
        "installed as \"" ++ shown modelName ++ "\". Triton requires these to match."]
    else []

def configWarnings : List String :=
  match configOf read d with
  | none => []
  | some config =>
    if config.platform = [] ∧ config.backend = [] then
      ["config.pbtxt sets neither 'platform' nor 'backend'; Triton will have to infer the " ++
        "backend from the model file."]
    else []

def strayWarnings (entry : Name) : List String :=
  if isDir d [entry] then
    if isVersionName entry ∨ entry = "warmup".toList then []
    else ["Directory '" ++ shown entry ++ "/' is not a numeric version and will be ignored by " ++
      "Triton."]
  else if entry ≠ "config.pbtxt".toList ∧
      !([".txt".toList, ".json".toList].contains (suffixOf entry)) then
    ["File '" ++ shown entry ++ "' sits outside a version directory and will be ignored by Triton."]
  else []

/-- No version: the most common mistake is model files dropped straight into the directory. -/
def unversioned : String :=
  match (entriesOf d).find? fun e => isFile d [e] && (artifactPlatforms.lookup e).isSome with
  | some stray => "Model file '" ++ shown stray ++ "' is directly inside the model directory. " ++
      "Triton requires a numeric version directory, e.g. 1/" ++ shown stray ++ "."
  | none => "No version directory found. A Triton model needs at least one directory named with " ++
      "a positive integer, e.g. '1/'."

def numberErrors (version : Name) : List String :=
  if versionNumber version < 1 then
    ["Version directory '" ++ shown version ++ "/' is invalid: Triton versions start at 1."]
  else []

/-- The platform or backend, as the result and the messages name it. -/
def platformShown : Name :=
  if platformOf read d ≠ [] then platformOf read d else ((configOf read d).getD {}).backend

def missing (version name : Name) : String :=
  let present := ((children d [version]).mergeSort nameLe).take 6
  let platform := if platformShown read d = [] then "this backend" else shown (platformShown read d)
  "Version '" ++ shown version ++ "/' does not contain '" ++ shown name ++ "', which " ++
    platform ++ " requires (found: " ++
    (if present = [] then "nothing" else ", ".intercalate (present.map shown)) ++
    "). Rename the file, or set default_model_filename in config.pbtxt."

def versionErrors (version : Name) : List String :=
  -- ensembles legitimately have empty version directories
  if platformOf read d = ensemble then []
  else if children d [version] = [] then
    ["Version directory '" ++ shown version ++ "/' is empty."]
  else
    match expectedArtifact read d with
    | none => []
    | some (name, kind) =>
      match lookIn outside d version name with
      | none => [missing read d version name]
      | some node =>
        if kind.fits node then []
        else ["'" ++ shown version ++ "/" ++ shown name ++ "' must be a " ++
          (if kind = .dir then "directory" else "file") ++ " for " ++
          shown (platformShown read d) ++ "."]

def versionWarnings (version : Name) : List String :=
  if platformOf read d = ensemble ∨ children d [version] = [] then []
  else
    match expectedArtifact read d with
    | none => []
    | some (name, kind) =>
      match lookIn outside d version name with
      | none => []
      | some node =>
        if kind.fits node ∧ name = "model.xml".toList ∧
            (d.get? [version, "model.bin".toList]).isNone then
          ["Version '" ++ shown version ++ "/' has model.xml but no model.bin; OpenVINO models " ++
            "normally need both."]
        else []

def unconfiguredErrors : List String :=
  if (configOf read d).isSome ∨ autocompletePlatforms.contains (platformOf read d) then []
  else if platformOf read d ≠ [] then
    ["No config.pbtxt, and " ++ shown (platformOf read d) ++ " models cannot be autocompleted " ++
      "by Triton. Add a config.pbtxt."]
  else ["No config.pbtxt, and the backend could not be inferred from the model files. Add a " ++
    "config.pbtxt specifying 'platform' or 'backend'."]

def unconfiguredWarnings : List String :=
  if (configOf read d).isNone ∧ autocompletePlatforms.contains (platformOf read d) then
    ["No config.pbtxt. Triton can autocomplete a " ++ shown (platformOf read d) ++ " model, but " ++
      "not on a server that runs with --disable-auto-complete-config."]
  else []

/-- `none` is what is no directory. -/
def validateModelDir (dir : Option (Disk Name)) (modelName : Name) : ValidationResult :=
  match dir with
  | none => { errors := ["The upload does not contain a model directory."] }
  | some d =>
    let errors := configErrors read d modelName
    let warnings := configWarnings read d ++ (entriesOf d).flatMap (strayWarnings d)
    let versions := versionDirs d
    if versions = [] then { errors := errors ++ [unversioned d], warnings := warnings }
    else
      { errors := errors ++ versions.flatMap numberErrors ++
          versions.flatMap (versionErrors read outside d) ++ unconfiguredErrors read d
        warnings := warnings ++ versions.flatMap (versionWarnings read outside d) ++
          unconfiguredWarnings read d
        platform := platformShown read d
        versions := versions.mergeSort fun a b => versionNumber a ≤ versionNumber b }

end Validate

/-- A directory that Triton can serve as the model of that name. -/
structure WellFormed (read : List UInt8 → Except String Text) (outside : Outside) (d : Disk Name)
    (name : Name) : Prop where
  readable : ∀ config ∈ configOf read d, config.error = none
  named : ∀ config ∈ configOf read d, config.name = [] ∨ config.name = name
  /-- Triton completes the config of some platforms by itself. -/
  configured : (configOf read d).isSome ∨ platformOf read d ∈ autocompletePlatforms
  versioned : ∃ v, isDir d [v] = true ∧ isVersionName v = true
  positive : ∀ v, isDir d [v] = true → isVersionName v = true → 1 ≤ versionNumber v
  filled : platformOf read d ≠ ensemble → ∀ v, isDir d [v] = true →
    isVersionName v = true → children d [v] ≠ [] ∧
      ∀ artifact kind, expectedArtifact read d = some (artifact, kind) →
        ∃ node, lookIn outside d v artifact = some node ∧ kind.fits node = true

section Accepted
variable {read : List UInt8 → Except String Text} {outside : Outside} {d : Disk Name} {name : Name}

theorem mem_versionDirs {v : Name} :
    v ∈ versionDirs d ↔ isDir d [v] = true ∧ isVersionName v = true := by
  rw [versionDirs, List.mem_filter, Bool.and_eq_true, entriesOf, List.mem_mergeSort, mem_children]
  refine ⟨fun h => h.2, fun h => ⟨?_, h⟩⟩
  have hdir : d.get? [v] = some .dir := by simpa [isDir] using h.1
  simp [hdir]

theorem configErrors_eq_nil : configErrors read d name = [] ↔
    (∀ config ∈ configOf read d, config.error = none) ∧
      ∀ config ∈ configOf read d, config.name = [] ∨ config.name = name := by
  unfold configErrors
  cases configOf read d with
  | none => simp
  | some config =>
    by_cases hname : config.name ≠ [] ∧ config.name ≠ name
    · simp [hname]
    · simp only [if_neg hname]
      have hor : config.name = [] ∨ config.name = name := by
        by_contra hne
        exact hname (not_or.mp hne)
      cases herror : config.error <;> simp [hor, herror]

theorem numberErrors_eq_nil {v : Name} : numberErrors v = [] ↔ 1 ≤ versionNumber v := by
  unfold numberErrors
  split_ifs with h
  · exact iff_of_false (by simp) (by omega)
  · exact iff_of_true rfl (by omega)

theorem versionErrors_eq_nil {v : Name} : versionErrors read outside d v = [] ↔
    (platformOf read d ≠ ensemble → children d [v] ≠ [] ∧
      ∀ artifact kind, expectedArtifact read d = some (artifact, kind) →
        ∃ node, lookIn outside d v artifact = some node ∧ kind.fits node = true) := by
  unfold versionErrors
  by_cases hens : platformOf read d = ensemble
  · simp [hens]
  · by_cases hempty : children d [v] = []
    · simp [hens, hempty]
    · simp only [ne_eq, hens, if_false, not_false_eq_true, true_implies, hempty, true_and]
      cases hexpected : expectedArtifact read d with
      | none => simp
      | some e =>
        obtain ⟨artifact, kind⟩ := e
        cases hlook : lookIn outside d v artifact with
        | none => simp [hlook]
        | some node => cases hfits : kind.fits node <;> simp [hlook, hfits]

theorem unconfiguredErrors_eq_nil : unconfiguredErrors read d = [] ↔
    ((configOf read d).isSome ∨ platformOf read d ∈ autocompletePlatforms) := by
  unfold unconfiguredErrors
  rw [← List.contains_iff_mem]
  by_cases h : (configOf read d).isSome ∨ autocompletePlatforms.contains (platformOf read d)
  · rw [if_pos h]
    exact iff_of_true rfl h
  · rw [if_neg h]
    split_ifs <;> simp only [h]

/-- The validation finds no error exactly in a directory that Triton can serve. -/
theorem accepted_iff_wellFormed :
    (validateModelDir read outside (some d) name).ok = true ↔ WellFormed read outside d name := by
  have hversioned : versionDirs d ≠ [] ↔ ∃ v, isDir d [v] = true ∧ isVersionName v = true := by
    constructor
    · intro hne
      obtain ⟨v, hv⟩ := List.exists_mem_of_ne_nil _ hne
      exact ⟨v, mem_versionDirs.mp hv⟩
    · rintro ⟨v, hv⟩
      exact List.ne_nil_of_mem (mem_versionDirs.mpr hv)
  unfold validateModelDir
  by_cases hnone : versionDirs d = []
  · simp only [hnone, if_true]
    refine ⟨fun h => ?_, fun h => absurd (hversioned.mpr h.versioned) (not_not.mpr hnone)⟩
    simp [ValidationResult.ok] at h
  · simp only [hnone, if_false, ValidationResult.ok, List.isEmpty_iff, List.append_eq_nil_iff,
      List.flatMap_eq_nil_iff, configErrors_eq_nil, numberErrors_eq_nil, versionErrors_eq_nil,
      unconfiguredErrors_eq_nil, mem_versionDirs]
    constructor
    · rintro ⟨⟨⟨⟨hreadable, hnamed⟩, hpositive⟩, hfilled⟩, hconfigured⟩
      exact ⟨hreadable, hnamed, hconfigured, hversioned.mp hnone, fun v hv hn => hpositive v ⟨hv, hn⟩,
        fun hens v hv hn => hfilled v ⟨hv, hn⟩ hens⟩
    · intro h
      exact ⟨⟨⟨⟨h.readable, h.named⟩, fun v hv => h.positive v hv.1 hv.2⟩,
        fun v hv hens => h.filled hens v hv.1 hv.2⟩, h.configured⟩

theorem configOf_eq_none (hbare : isFile d ["config.pbtxt".toList] = false) :
    configOf read d = none := by
  unfold configOf
  cases hnode : d.get? ["config.pbtxt".toList] with
  | none => rfl
  | some node =>
    unfold isFile at hbare
    rw [hnode] at hbare
    cases node with
    | file bytes => cases hbare
    | dir => rfl
    | link => rfl
    | special => rfl

/-- The artifact of a platform that Triton completes the config of: a plain name. -/
theorem artifact_of_autocomplete {platform : Name} (h : platform ∈ autocompletePlatforms) :
    platform ≠ [] ∧ platform ≠ ensemble ∧ ∃ artifact kind,
      platformArtifacts.lookup platform = some (artifact, kind) ∧
        '/' ∉ artifact ∧ artifact ∉ [[], ['.'], ['.', '.']] := by
  have hall : ∀ platform ∈ autocompletePlatforms, platform ≠ [] ∧ platform ≠ ensemble ∧
      (platformArtifacts.lookup platform).any (fun e => '/' ∉ e.1 ∧ e.1 ∉ [[], ['.'], ['.', '.']]) =
        true := by decide +kernel
  obtain ⟨hne, hens, hany⟩ := hall platform h
  obtain ⟨⟨artifact, kind⟩, hlookup, hplain⟩ := (Option.any_eq_true _ _).mp hany
  exact ⟨hne, hens, artifact, kind, hlookup, (of_decide_eq_true hplain).1,
    (of_decide_eq_true hplain).2⟩

theorem lookIn_plain {v artifact : Name} (hv : isDir d [v] = true) (hslash : '/' ∉ artifact)
    (hplain : artifact ∉ [[], ['.'], ['.', '.']]) :
    lookIn outside d v artifact = d.get? [v, artifact] := by
  simp only [List.mem_cons, List.not_mem_nil, or_false, not_or] at hplain
  obtain ⟨hne, hdot, hdots⟩ := hplain
  have hhead : artifact.head? ≠ some '/' := by
    intro h
    exact hslash (List.mem_of_head? h)
  have hparts : (artifact.splitOn '/').filter (fun p => p ≠ [] ∧ p ≠ ['.']) = [artifact] := by
    rw [List.splitOn_eq_singleton hslash]
    simp [hne, hdot]
  rw [lookIn, if_neg hhead, hparts]
  simp [walk, hv, hdots]

/-- A directory without a config is accepted where every version holds the artifact of the one
platform that the first version's files tell, and Triton completes the config of that platform. -/
theorem accepted_without_config (hbare : isFile d ["config.pbtxt".toList] = false) :
    (validateModelDir read outside (some d) name).ok = true ↔
      platformOf read d ∈ autocompletePlatforms ∧
      (∃ v, isDir d [v] = true ∧ isVersionName v = true) ∧
      ∀ v, isDir d [v] = true → isVersionName v = true → 1 ≤ versionNumber v ∧
        ∃ artifact kind node, platformArtifacts.lookup (platformOf read d) = some (artifact, kind) ∧
          d.get? [v, artifact] = some node ∧ kind.fits node = true := by
  have hconfig : configOf read d = none := configOf_eq_none hbare
  rw [accepted_iff_wellFormed]
  constructor
  · intro h
    have hplatform : platformOf read d ∈ autocompletePlatforms := by
      simpa [hconfig] using h.configured
    obtain ⟨hne, hens, artifact, kind, hlookup, hslash, hplain⟩ := artifact_of_autocomplete hplatform
    have hexpected : expectedArtifact read d = some (artifact, kind) := by
      simp [expectedArtifact, hconfig, hne, hlookup]
    refine ⟨hplatform, h.versioned, fun v hv hn => ⟨h.positive v hv hn, artifact, kind, ?_⟩⟩
    obtain ⟨node, hlook, hfits⟩ := (h.filled hens v hv hn).2 artifact kind hexpected
    exact ⟨node, hlookup, lookIn_plain hv hslash hplain ▸ hlook, hfits⟩
  · rintro ⟨hplatform, hversioned, hall⟩
    obtain ⟨hne, hens, artifact, kind, hlookup, hslash, hplain⟩ := artifact_of_autocomplete hplatform
    have hexpected : expectedArtifact read d = some (artifact, kind) := by
      simp [expectedArtifact, hconfig, hne, hlookup]
    refine ⟨by simp [hconfig], by simp [hconfig], .inr hplatform, hversioned,
      fun v hv hn => (hall v hv hn).1, fun _ v hv hn => ?_⟩
    obtain ⟨artifact', kind', node, hlookup', hnode, hfits⟩ := (hall v hv hn).2
    obtain ⟨rfl, rfl⟩ := Prod.mk.inj (Option.some.inj (hlookup.symm.trans hlookup'))
    have hchild : artifact ∈ children d [v] := mem_children.mpr (by simp [hnode])
    refine ⟨List.ne_nil_of_mem hchild, fun artifact'' kind'' heq => ?_⟩
    obtain ⟨rfl, rfl⟩ := Prod.mk.inj (Option.some.inj (hexpected.symm.trans heq))
    exact ⟨node, (lookIn_plain hv hslash hplain).trans hnode, hfits⟩

/-- A text in ASCII, which UTF-8 is read as. -/
def readAscii (bytes : List UInt8) : Except String Text := .ok (bytes.map fun b => Char.ofNat b.toNat)

/-- Nothing is found outside the upload. -/
def closed : Outside := ⟨fun _ => none, fun _ => none⟩

/-- One version, and no config. -/
def bareModel : Disk Name :=
  [(["1".toList], .dir), (["1".toList, "model.onnx".toList], .file [120])]

theorem accepted_without_config_onnx :
    (validateModelDir readAscii closed (some bareModel) "tagger".toList).ok = true := by
  have hplatform : platformOf readAscii bareModel = "onnxruntime_onnx".toList := by decide +kernel
  have hversion (v : Name) (hv : isDir bareModel [v] = true) : v = "1".toList := by
    have hmem : v ∈ children bareModel [] :=
      mem_children.mpr (by simp [show bareModel.get? [v] = some .dir by simpa [isDir] using hv])
    rw [show children bareModel [] = ["1".toList] by decide +kernel] at hmem
    exact List.mem_singleton.mp hmem
  refine (accepted_without_config (by decide +kernel)).mpr ⟨?_, ⟨"1".toList, by decide +kernel⟩, ?_⟩
  · rw [hplatform]
    decide +kernel
  · intro v hv hn
    obtain rfl := hversion v hv
    refine ⟨by decide +kernel, "model.onnx".toList, .any, .file [120], ?_, by decide +kernel, rfl⟩
    rw [hplatform]
    decide +kernel

end Accepted

/-- A staged tree as the validation finds it. -/
def diskOfTree (t : ModelRepository.Tree) : Disk Name :=
  t.map fun e => (e.1.map String.toList, (e.2.map fun text => .file (Utf8.encode text.toList)).getD .dir)

def validTree (read : List UInt8 → Except String Text) (outside : Outside) (t : ModelRepository.Tree)
    (name : String) : Bool :=
  (validateModelDir read outside (some (diskOfTree t)) name.toList).ok

section Served
open ModelRepository

/-- In every run of uploads, Triton can serve every model that is shown under its name: at no
moment does the repository show one that is not laid out for it. -/
theorem served_wellFormed {read : List UInt8 → Except String Text} {outside : Outside}
    {acts : List ModelRepository.Action} {s : Sys}
    (hapart : Machine.Along (step (validTree read outside)) Apart start acts)
    (hrun : Machine.run (step (validTree read outside)) start acts = some s) {name : String}
    {t : Tree} (ht : s.entries.get? (.model name) = some t) :
    WellFormed read outside (diskOfTree t) name.toList := by
  have hsound : Sound (validTree read outside) s :=
    Machine.run_invariant (sound_start _) (fun _ _ _ h hc hs => sound_step h hc hs) hapart hrun
  obtain ⟨u, -, -, -, -, hvalid⟩ := hsound.shows.whole name t ht
  exact accepted_iff_wellFormed.mp hvalid

/-- One upload is refused, and one is installed. -/
def servedRun : List ModelRepository.Action :=
  [.upload "tagger" false "extract" [(["model.onnx"], some "x")], .validate 0 true,
    .upload "tagger" false "model" [(["1"], none), (["1", "model.onnx"], some "x")],
    .validate 1 true, .test 1, .move 1 true]

theorem served_wellFormed_onnx : ∃ s t,
    Machine.run (step (validTree readAscii closed)) start servedRun = some s ∧
      s.entries.get? (.model "tagger") = some t ∧
      WellFormed readAscii closed (diskOfTree t) "tagger".toList := by
  have hrun : ((Machine.run (step (validTree readAscii closed)) start servedRun).bind fun s =>
      s.entries.get? (.model "tagger")).isSome = true := by decide +kernel
  obtain ⟨t, ht⟩ := Option.isSome_iff_exists.mp hrun
  obtain ⟨s, hs, ht⟩ := Option.bind_eq_some_iff.mp ht
  exact ⟨s, t, hs, ht, served_wellFormed (by decide +kernel) hs ht⟩

end Served

end PurdueAF.ModelUploads

import PurdueAF.ModelUploads
import PurdueAF.PyJson

/-!
# Installing an archive

`install_archive` from the unpacked members on: the model's root is found below directories that
only wrap it, and its tree is validated and moved into the repository. `validate` is
`validate_model_dir`, which reads the tree and the name alone, and `valid` its result's `ok`.
-/
namespace PurdueAF.ModelUploads
open FileTree Py

def isVersionName (name : Name) : Bool := name ≠ [] && name.all fun c => '0' ≤ c && c ≤ '9'

def children (d : Disk Name) (path : List Name) : List Name :=
  (d.filterMap fun e => if e.1.dropLast = path then e.1.getLast? else none).dedup

def isFile (d : Disk Name) (path : List Name) : Bool :=
  match d.get? path with
  | some (.file _) => true
  | _ => false

def isDir (d : Disk Name) (path : List Name) : Bool := d.get? path = some .dir

def looksLikeModelDir (d : Disk Name) (path : List Name) : Bool :=
  isFile d (path ++ ["config.pbtxt".toList]) ||
    (children d path).any fun sub => isDir d (path ++ [sub]) && isVersionName sub

/-- The loop of `_resolve_model_root`, with the rounds that are left. -/
def resolveModelRoot (d : Disk Name) : ℕ → List Name → List Name
  | 0, current => current
  | rounds + 1, current =>
    if looksLikeModelDir d current then current
    else
      match (children d current).filter fun c => !isJunk [c] with
      | [c] => if isDir d (current ++ [c]) then resolveModelRoot d rounds (current ++ [c]) else current
      | _ => current

/-- What is under a directory. -/
def subtree (d : Disk Name) (root : List Name) : Disk Name :=
  d.filterMap fun e =>
    if root <+: e.1 ∧ e.1 ≠ root then some (e.1.drop root.length, e.2) else none

variable (repr : Name → String)

def stripSlash (name : Name) : Name :=
  ((name.dropWhile (· = '/')).reverse.dropWhile (· = '/')).reverse

def nameChar (c : Char) : Bool :=
  'A' ≤ c && c ≤ 'Z' || 'a' ≤ c && c ≤ 'z' || '0' ≤ c && c ≤ '9' || c ∈ ['.', '_', '-']

/-- `MODEL_NAME_RE.match`; its `$` stands before a line feed at the end, too. -/
def matchesName (name : Name) : Bool :=
  let text := if name.getLast? = some '\n' then name.dropLast else name
  1 ≤ text.length && text.length ≤ 255 && text.all nameChar

def validateName (name : Name) : Except String Name :=
  let name := stripSlash (stripSpace name)
  if matchesName name = false ∨ name = ".".toList ∨ name = "..".toList ∨ name.head? = some '.' then
    .error ("Invalid model name " ++ repr name ++ ": use letters, digits, '.', '_' or '-' " ++
      "and do not start with a dot.")
  else .ok name

/-- Bytes and files of a tree. -/
def dirStats (t : Disk Name) : ℕ × ℕ :=
  t.foldl (fun acc e =>
    match e.2 with
    | .dir => acc
    | .file bytes => (acc.1 + bytes.length, acc.2 + 1)
    | .link | .special => (acc.1, acc.2 + 1)) (0, 0)

structure Installed (V : Type) where
  name : Name
  sizeBytes : ℕ
  fileCount : ℕ
  validation : V

inductive Failed (V : Type)
  | refused (message : String)
  | invalid (result : V)
  /-- A call on the file system failed. -/
  | raised

/-- The models by name; what `_install` does to them when no other upload comes between. -/
abbrev Models := Dict Name (Disk Name)

def install (models : Models) (source : Disk Name) (name : Name) (overwrite : Bool) :
    Except String Models :=
  if (models.get? name).isSome ∧ overwrite = false then
    .error ("Model " ++ repr name ++
      " already exists. Re-upload with overwrite enabled to replace it.")
  else .ok (models.set name source)

inductive Archive
  | zip (infos : List ZipInfo)
  | tar (members : List TarInfo)

def Archive.extract (dest : List Name) (budget : ℤ) : Archive → Calls ℤ
  | .zip infos => extractZip repr dest budget infos
  | .tar members => extractTar repr dest budget members

/-- What an upload comes with, beside its archive: `stem` is its file name without the suffix. -/
structure Form where
  stem : Name
  name : Name
  overwrite : Bool

section Install
variable {V : Type} (validate : Disk Name → Name → V) (valid : V → Bool)

def installTree (tree : Disk Name) (name : Name) (overwrite : Bool) (models : Models) :
    Except (Failed V) (Installed V × Models) :=
  match validateName repr name with
  | .error e => .error (.refused e)
  | .ok name =>
    let result := validate tree name
    if valid result then
      match install repr models tree name overwrite with
      | .error e => .error (.refused e)
      | .ok models => .ok (⟨name, (dirStats tree).1, (dirStats tree).2, result⟩, models)
    else .error (.invalid result)

/-- From what the extraction left: the disk, unless a call failed, and how it ended. -/
def installExtracted (extractTo : List Name) (form : Form) (models : Models) :
    Option (Disk Name) → Except String ℤ → Except (Failed V) (Installed V × Models)
  | none, _ => .error .raised
  | some _, .error e => .error (.refused e)
  | some d, .ok _ =>
    let root := resolveModelRoot d 5 extractTo
    let name :=
      if form.name = [] then
        if root = extractTo then form.stem else root.getLast?.getD []
      else form.name
    installTree repr validate valid (subtree d root) name form.overwrite models

def installArchive (limit : ℕ) (d : Disk Name) (extractTo : List Name) (form : Form)
    (models : Models) (archive : Archive) : Except (Failed V) (Installed V × Models) :=
  let calls := archive.extract repr extractTo limit
  installExtracted repr validate valid extractTo form models (run d calls.ops) calls.ended

end Install

/-- A directory or a file of the tree that is archived. -/
structure Item where
  path : List Name
  /-- Of a file. -/
  content : Option (List (List UInt8))
  ne : path ≠ []
  names : ∀ c ∈ path, c ≠ [] ∧ '/' ∉ c

def Item.chunks (i : Item) : List (List UInt8) := i.content.getD []

def Item.node (i : Item) : Node :=
  match i.content with
  | none => .dir
  | some chunks => .file chunks.flatten

def diskOf (tree : List Item) : Disk Name := tree.map fun i => (i.path, i.node)

def joined (path : List Name) : Name := List.intercalate ['/'] path

inductive Format
  | zip | tar
  deriving DecidableEq

/-- The name of a member, after what the archiver puts before the names; zip ends a directory's
with a slash. -/
def memberName (f : Format) (pre : Name) (i : Item) : Name :=
  pre ++ joined i.path ++ if f = .zip ∧ i.content = none then ['/'] else []

def archiveOf (f : Format) (pre : Name) (tree : List Item) : Archive :=
  match f with
  | .zip => .zip (tree.map fun i => ⟨memberName .zip pre i, i.chunks.flatten.length, i.chunks⟩)
  | .tar => .tar (tree.map fun i => ⟨memberName .tar pre i,
      if i.content = none then .dir else .file, i.chunks.flatten.length, i.chunks⟩)

/-- The name of a member for the archived directory itself; `tarfile` takes a directory's slash
away. -/
def ownName : Format → Name
  | .zip => "./".toList
  | .tar => ".".toList

/-- The archive with a member for the directory itself before the others. -/
def withOwn : Archive → Archive
  | .zip infos => .zip (⟨ownName .zip, 0, []⟩ :: infos)
  | .tar members => .tar (⟨ownName .tar, .dir, 0, []⟩ :: members)

theorem safeParts_append (a b : List Name) :
    safeParts (a ++ b) = (safeParts a).bind fun x => (safeParts b).map (x ++ ·) := by
  induction a with
  | nil => simp [safeParts]
  | cons part a ih =>
    rw [List.cons_append, safeParts, safeParts, ih]
    split_ifs
    · rfl
    · rfl
    · cases safeParts a with
      | none => rfl
      | some x =>
        cases safeParts b with
        | none => rfl
        | some y => rfl

/-- The slashes that `lstrip` takes away would give components to skip. -/
theorem parts_eq (name : Name) : parts name = safeParts ((name.map slashes).splitOn '/') := by
  have hdrop : ∀ text : Name,
      safeParts ((text.dropWhile (· = '/')).splitOn '/') = safeParts (text.splitOn '/') := by
    intro text
    induction text with
    | nil => rfl
    | cons c text ih =>
      by_cases hc : c = '/'
      · have hsplit : ('/' :: text).splitOn '/' = [] :: text.splitOn '/' := by
          rw [List.splitOn_cons_eq_if_modifyHead, if_pos (by simp)]
        rw [hc, List.dropWhile_cons_of_pos (by simp), ih, hsplit, safeParts, if_pos (.inl rfl)]
      · rw [List.dropWhile_cons_of_neg (by simpa using hc)]
  exact hdrop _

theorem parts_slash (a b : Name) :
    parts (a ++ '/' :: b) = (parts a).bind fun x => (parts b).map (x ++ ·) := by
  have hslash : slashes '/' = '/' := rfl
  rw [parts_eq, parts_eq, parts_eq, List.map_append, List.map_cons, hslash,
    List.splitOn_append_cons_self, safeParts_append]

theorem parts_trailing (name : Name) : parts (name ++ ['/']) = parts name := by
  rw [parts_slash, show parts [] = some [] from rfl]
  cases parts name <;> simp

theorem parts_dotted (name : Name) : parts ("./".toList ++ name) = parts name := by
  have h := parts_slash ['.'] name
  rw [show parts ['.'] = some [] from rfl] at h
  refine Eq.trans h ?_
  cases parts name <;> rfl

theorem joined_append {a b : List Name} (ha : a ≠ []) (hb : b ≠ []) :
    joined (a ++ b) = joined a ++ '/' :: joined b := by
  induction a with
  | nil => exact absurd rfl ha
  | cons c a ih =>
    by_cases hnil : a = []
    · subst hnil
      rw [List.singleton_append, joined, List.intercalate_cons_of_ne_nil hb]
      simp [joined]
    · have hne : a ++ b ≠ [] := by simp [hnil]
      rw [List.cons_append, joined, List.intercalate_cons_of_ne_nil hne, joined,
        List.intercalate_cons_of_ne_nil hnil]
      have := ih hnil
      simp only [joined] at this
      rw [this]
      simp [joined]

theorem joined_cons (w : Name) {ws : List Name} (h : ws ≠ []) :
    joined (w :: ws) = w ++ '/' :: joined ws := by
  rw [← List.singleton_append, joined_append (List.cons_ne_nil w []) h]
  simp [joined]

/-- A directory's name that wraps a tree, as `_safe_relpath` keeps it. -/
structure Wraps (f : Format) (name : Name) : Prop where
  kept : parts name = some [name]
  notJunk : isJunk [name] = false
  notVersion : isVersionName name = false
  notPax : f = .tar → paxHeader name = false

theorem parts_joined {ws : List Name} (h : ∀ w ∈ ws, parts w = some [w]) :
    parts (joined ws) = some ws := by
  induction ws with
  | nil => rfl
  | cons w ws ih =>
    have hw := h w (by simp)
    by_cases hnil : ws = []
    · subst hnil
      simpa [joined] using hw
    · rw [joined_cons w hnil, parts_slash, hw, ih fun v hv => h v (by simp [hv])]
      rfl

theorem isJunk_append (a b : List Name) : isJunk (a ++ b) = (isJunk a || isJunk b) := by
  rw [isJunk, List.any_append]
  rfl

theorem isJunk_eq_false {ws : List Name} (h : ∀ w ∈ ws, isJunk [w] = false) :
    isJunk ws = false := by
  induction ws with
  | nil => rfl
  | cons w ws ih =>
    rw [← List.singleton_append, isJunk_append, h w (by simp), ih fun v hv => h v (by simp [hv])]
    rfl

theorem isPrefixOf_head_splitOn {pattern : Name} (hp : '/' ∉ pattern) (name : Name) :
    pattern <+: name ↔ pattern <+: (name.splitOn '/').headD [] := by
  induction name generalizing pattern with
  | nil => simp
  | cons c name ih =>
    rw [List.splitOn_cons_eq_if_modifyHead]
    split_ifs with hc
    · obtain rfl : c = '/' := by simpa using hc
      cases pattern with
      | nil => simp
      | cons x pattern =>
        have hx : x ≠ '/' := fun h => hp (by simp [h])
        simp [List.cons_prefix_cons, hx]
    · obtain ⟨first, more, hsplit⟩ := List.exists_cons_of_ne_nil (List.splitOn_ne_nil '/' name)
      rw [hsplit] at ih ⊢
      cases pattern with
      | nil => simp
      | cons x pattern =>
        have hx : '/' ∉ pattern := fun h => hp (by simp [h])
        simpa [List.cons_prefix_cons] using fun _ => ih hx

theorem slash_infix_iff {pattern : Name} (hp : '/' ∉ pattern) (name : Name) :
    '/' :: pattern <:+: name ↔ ∃ c ∈ (name.splitOn '/').tail, pattern <+: c := by
  induction name with
  | nil => simp
  | cons c name ih =>
    obtain ⟨first, more, hsplit⟩ := List.exists_cons_of_ne_nil (List.splitOn_ne_nil '/' name)
    have hhead := isPrefixOf_head_splitOn hp name
    rw [List.infix_cons_iff, ih, List.splitOn_cons_eq_if_modifyHead, List.cons_prefix_cons, hhead]
    split_ifs with hc
    · obtain rfl : c = '/' := by simpa using hc
      rw [hsplit]
      simp
    · have hne : '/' ≠ c := fun h => hc (by simp [← h])
      rw [hsplit]
      simp [hne]

/-- A member of extended headers has a component that starts so. -/
theorem paxHeader_iff (name : Name) :
    paxHeader name = true ↔ ∃ c ∈ name.splitOn '/', "PaxHeader".toList <+: c := by
  have hp : '/' ∉ "PaxHeader".toList := by decide
  have hinfix : "/PaxHeader".toList = '/' :: "PaxHeader".toList := rfl
  obtain ⟨first, more, hsplit⟩ := List.exists_cons_of_ne_nil (List.splitOn_ne_nil '/' name)
  have hhead := isPrefixOf_head_splitOn hp name
  have htail := slash_infix_iff hp name
  rw [hsplit] at hhead htail ⊢
  rw [paxHeader, Bool.or_eq_true, decide_eq_true_eq, List.isPrefixOf_iff_prefix, hinfix, htail, hhead]
  simp

theorem paxHeader_slash (a b : Name) : paxHeader (a ++ '/' :: b) = (paxHeader a || paxHeader b) := by
  rw [Bool.eq_iff_iff, Bool.or_eq_true, paxHeader_iff, paxHeader_iff, paxHeader_iff,
    List.splitOn_append_cons_self]
  simp only [List.mem_append, or_and_right, exists_or]

theorem paxHeader_joined {ws : List Name} (h : ∀ w ∈ ws, paxHeader w = false) :
    paxHeader (joined ws) = false := by
  induction ws with
  | nil => rfl
  | cons w ws ih =>
    have hw := h w (by simp)
    by_cases hnil : ws = []
    · subst hnil
      simpa [joined] using hw
    · rw [joined_cons w hnil, paxHeader_slash, hw, ih fun v hv => h v (by simp [hv])]
      rfl

theorem joined_ne_nil {path : List Name} (hne : path ≠ []) (h : ∀ c ∈ path, c ≠ [] ∧ '/' ∉ c) :
    joined path ≠ [] ∧ (joined path).getLast? ≠ some '/' := by
  induction path with
  | nil => exact absurd rfl hne
  | cons c path ih =>
    obtain ⟨hc, hslash⟩ := h c (by simp)
    by_cases hnil : path = []
    · subst hnil
      have hone : joined [c] = c := by simp [joined]
      rw [hone]
      exact ⟨hc, fun hlast => hslash (List.mem_of_getLast? hlast)⟩
    · obtain ⟨hj, hlast⟩ := ih hnil fun c' hc' => h c' (by simp [hc'])
      rw [joined_cons c hnil]
      refine ⟨by simp, ?_⟩
      rwa [List.getLast?_append_of_ne_nil _ (by simp), List.getLast?_cons_of_ne_nil hj]

/-- What becomes of a member once its path is known. -/
def place (dest rel : List Name) (remaining : ℤ) (i : Item) : Calls ℤ :=
  let target := dest ++ rel
  if isJunk rel then ⟨[], .ok remaining⟩
  else if i.content.isNone then ⟨makedirs target, .ok remaining⟩
  else if remaining - i.chunks.flatten.length < 0 then
    ⟨[], .error "Archive expands beyond the configured upload size limit."⟩
  else
    ⟨makedirs target.dropLast ++ .create target :: i.chunks.map (.append target),
      .ok (remaining - i.chunks.flatten.length)⟩

def itemCalls (f : Format) (pre : Name) (dest : List Name) (remaining : ℤ) (i : Item) : Calls ℤ :=
  if f = .tar ∧ paxHeader (memberName f pre i) then ⟨[], .ok remaining⟩
  else
    match safeRelpath repr (memberName f pre i) with
    | .error e => ⟨[], .error e⟩
    | .ok rel => place dest rel remaining i

variable {repr}

theorem forEach_map {σ μ ν : Type} (body : σ → ν → Calls σ) (g : μ → ν) (s : σ) (ms : List μ) :
    forEach body s (ms.map g) = forEach (fun s m => body s (g m)) s ms := by
  induction ms generalizing s with
  | nil => rfl
  | cons m ms ih =>
    rw [List.map_cons, forEach, forEach]
    split
    · rfl
    · rw [ih]

theorem isDir_memberName (pre : Name) (i : Item) (size : ℕ) (chunks : List (List UInt8)) :
    (⟨memberName .zip pre i, size, chunks⟩ : ZipInfo).isDir = i.content.isNone := by
  obtain ⟨hne, hlast⟩ := joined_ne_nil i.ne i.names
  cases hc : i.content with
  | none => simp [ZipInfo.isDir, memberName, hc]
  | some content =>
    have hfile : (memberName .zip pre i).getLast? = (joined i.path).getLast? := by
      simp [memberName, hc, List.getLast?_append_of_ne_nil _ hne]
    simpa [ZipInfo.isDir, hfile] using hlast

theorem extractTarMember_of_plain {dest : List Name} {remaining : ℤ} {m : TarInfo}
    (hpax : ¬ paxHeader m.name = true) (hkind : m.kind = .file ∨ m.kind = .dir) :
    extractTarMember repr dest remaining m =
      extractMember repr dest remaining m.name (m.kind = .dir) m.size m.chunks := by
  have hlink : ¬ (m.kind = .symlink ∨ m.kind = .hardlink) := by
    rcases hkind with h | h <;> simp [h]
  rw [extractTarMember, if_neg hpax, if_neg hlink, if_neg (not_not.mpr hkind)]

theorem extract_archiveOf (f : Format) (pre : Name) (tree : List Item) (dest : List Name)
    (budget : ℤ) :
    (archiveOf f pre tree).extract repr dest budget =
      forEach (itemCalls repr f pre dest) budget tree := by
  cases f with
  | zip =>
    rw [archiveOf, Archive.extract, extractZip, forEach_map]
    congr 1
    funext remaining i
    rw [isDir_memberName, extractMember, itemCalls, if_neg (by simp)]
    rfl
  | tar =>
    rw [archiveOf, Archive.extract, extractTar, forEach_map]
    congr 1
    funext remaining i
    rw [itemCalls]
    by_cases hpax : paxHeader (memberName .tar pre i) = true
    · rw [extractTarMember, if_pos hpax, if_pos ⟨rfl, hpax⟩]
    · have hkind : (if i.content = none then TarKind.dir else .file) = .file ∨
          (if i.content = none then TarKind.dir else .file) = .dir := by
        split_ifs
        · exact .inr rfl
        · exact .inl rfl
      have hdir : decide ((if i.content = none then TarKind.dir else .file) = .dir) =
          i.content.isNone := by
        cases i.content <;> rfl
      rw [extractTarMember_of_plain hpax hkind, hdir, extractMember,
        if_neg (show ¬ (Format.tar = .tar ∧ _) from fun h => hpax h.2)]
      rfl

/-- What both archives come to, but for the member that a refusal names. -/
structure AlikeCalls {σ : Type} (repr : Name → String) (tree : List Item) (n n' : Item → Name)
    (c c' : Calls σ) : Prop where
  ops : c.ops = c'.ops
  ended : c.ended = c'.ended ∨ ∃ i ∈ tree,
    c.ended = .error ("Unsafe path in archive: " ++ repr (n i)) ∧
      c'.ended = .error ("Unsafe path in archive: " ++ repr (n' i))

theorem alikeCalls_rfl {σ : Type} {tree : List Item} {n n' : Item → Name} (c : Calls σ) :
    AlikeCalls repr tree n n' c c :=
  ⟨rfl, .inl rfl⟩

theorem forEach_alike {σ μ : Type} {tree : List Item} {n n' : Item → Name}
    {body body' : σ → μ → Calls σ} {s : σ} {ms : List μ}
    (h : ∀ m ∈ ms, ∀ s, AlikeCalls repr tree n n' (body s m) (body' s m)) :
    AlikeCalls repr tree n n' (forEach body s ms) (forEach body' s ms) := by
  induction ms generalizing s with
  | nil => exact alikeCalls_rfl _
  | cons m ms ih =>
    obtain ⟨hops, hended⟩ := h m (by simp) s
    have hrest : ∀ s, AlikeCalls repr tree n n' (forEach body s ms) (forEach body' s ms) :=
      fun s => ih fun m' hm' => h m' (by simp [hm'])
    rw [forEach, forEach]
    rcases hbody : body s m with ⟨ops, e | s₁⟩ <;> rcases hbody' : body' s m with ⟨ops', e' | s₁'⟩ <;>
      rw [hbody, hbody'] at hops hended
    · exact ⟨hops, hended⟩
    · simp at hended
    · simp at hended
    · obtain rfl : s₁ = s₁' := by simpa using hended
      obtain rfl : ops = ops' := hops
      obtain ⟨hops', hended'⟩ := hrest s₁
      exact ⟨congrArg (ops ++ ·) hops', hended'⟩

end PurdueAF.ModelUploads

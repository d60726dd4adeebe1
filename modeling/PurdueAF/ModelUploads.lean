import PurdueAF.FileTree

/-!
# What an upload writes

The loops that unpack an archive or take the files of a directory decide what to ask of the file
system from the members alone. `repr` is Python's, and `gib` the limit as the refusal prints it.
-/
namespace PurdueAF.ModelUploads
open FileTree

abbrev Name := List Char

variable (repr : Name → String)

/-- The components that the loop of `_safe_relpath` appends, unless it raises. -/
def safeParts : List Name → Option (List Name)
  | [] => some []
  | part :: parts =>
    if part = [] ∨ part = ['.'] then safeParts parts
    else if part = ['.', '.'] ∨ ':' ∈ part then none
    else (safeParts parts).map (part :: ·)

def slashes (c : Char) : Char := if c = '\\' then '/' else c

def parts (name : Name) : Option (List Name) :=
  safeParts (((name.map slashes).dropWhile (· = '/')).splitOn '/')

def safeRelpath (member : Name) : Except String (List Name) :=
  match parts member with
  | none | some [] => .error ("Unsafe path in archive: " ++ repr member)
  | some rel => .ok rel

/-- Archiver noise. -/
def isJunk (relative : List Name) : Bool :=
  relative.any fun part =>
    part = "__MACOSX".toList || "._".toList.isPrefixOf part ||
      part ∈ [".DS_Store".toList, "Thumbs.db".toList, "desktop.ini".toList]

/-- The calls that a piece of the code comes to, and what it returns or raises after them. -/
structure Calls (σ : Type) where
  ops : List (Op Name)
  ended : Except String σ

def Calls.after {σ : Type} (ops : List (Op Name)) (c : Calls σ) : Calls σ := ⟨ops ++ c.ops, c.ended⟩

/-- A loop that an exception ends. -/
def forEach {σ μ : Type} (body : σ → μ → Calls σ) : σ → List μ → Calls σ
  | s, [] => ⟨[], .ok s⟩
  | s, m :: ms =>
    match body s m with
    | ⟨ops, .error e⟩ => ⟨ops, .error e⟩
    | ⟨ops, .ok s'⟩ => (forEach body s' ms).after ops

/-- What the two loops over the members of an archive do from a member's path on. `chunks` is
what reading it gives, and `remaining` what is left of the budget. -/
def extractMember (dest : List Name) (remaining : ℤ) (name : Name) (isDir : Bool) (size : ℤ)
    (chunks : List (List UInt8)) : Calls ℤ :=
  match safeRelpath repr name with
  | .error e => ⟨[], .error e⟩
  | .ok rel =>
    let target := dest ++ rel
    if isJunk rel then ⟨[], .ok remaining⟩
    else if isDir then ⟨makedirs target, .ok remaining⟩
    else if remaining - size < 0 then
      ⟨[], .error "Archive expands beyond the configured upload size limit."⟩
    else
      ⟨makedirs target.dropLast ++ .create target :: chunks.map (.append target),
        .ok (remaining - size)⟩

structure ZipInfo where
  filename : Name
  fileSize : ℕ
  chunks : List (List UInt8)

def ZipInfo.isDir (info : ZipInfo) : Bool := info.filename.getLast? = some '/'

def extractZip (dest : List Name) (budget : ℤ) (infos : List ZipInfo) : Calls ℤ :=
  forEach (fun remaining info =>
    extractMember repr dest remaining info.filename info.isDir info.fileSize info.chunks)
    budget infos

inductive TarKind
  | file | dir | symlink | hardlink
  /-- A device, a pipe or a type that is not known. -/
  | other
  deriving DecidableEq

structure TarInfo where
  name : Name
  kind : TarKind
  size : ℤ
  chunks : List (List UInt8)

def paxHeader (name : Name) : Bool :=
  "PaxHeader".toList.isPrefixOf name || decide ("/PaxHeader".toList <:+: name)

def extractTarMember (dest : List Name) (remaining : ℤ) (member : TarInfo) : Calls ℤ :=
  if paxHeader member.name then ⟨[], .ok remaining⟩
  else if member.kind = .symlink ∨ member.kind = .hardlink then
    ⟨[], .error ("Archive contains a link (" ++ repr member.name ++ "); refusing.")⟩
  else if ¬ (member.kind = .file ∨ member.kind = .dir) then
    ⟨[], .error ("Unsupported archive entry type: " ++ repr member.name)⟩
  else
    extractMember repr dest remaining member.name (member.kind = .dir) member.size member.chunks

def extractTar (dest : List Name) (budget : ℤ) (members : List TarInfo) : Calls ℤ :=
  forEach (extractTarMember repr dest) budget members

variable (gib : ℕ → String)

/-- The loop of `copy_with_limit`, with the upload's running total. -/
def copyChunks (limit : ℕ) (target : List Name) : ℕ → List (List UInt8) → Calls ℕ
  | written, [] => ⟨[], .ok written⟩
  | written, chunk :: chunks =>
    if limit < written + chunk.length then
      ⟨[], .error ("Upload exceeds the configured size limit (" ++ gib limit ++ " GiB).")⟩
    else (copyChunks limit target (written + chunk.length) chunks).after [.append target chunk]

def copyWithLimit (limit : ℕ) (target : List Name) (written : ℕ) (chunks : List (List UInt8)) :
    Calls ℕ :=
  (copyChunks gib limit target written chunks).after [.create target]

/-- `DirectoryUpload.add_file`: the state is the upload's `written`. -/
def addFile (limit : ℕ) (root : List Name) (written : ℕ) (file : Name × List (List UInt8)) :
    Calls ℕ :=
  match safeRelpath repr file.1 with
  | .error e => ⟨[], .error e⟩
  | .ok rel =>
    if isJunk rel then ⟨[], .ok written⟩
    else
      (copyWithLimit gib limit (root ++ rel) written file.2).after (makedirs (root ++ rel).dropLast)

/-- The files of one upload, in the handler's order: the first that is refused ends it. -/
def addFiles (limit : ℕ) (root : List Name) (files : List (Name × List (List UInt8))) : Calls ℕ :=
  forEach (addFile repr gib limit root) 0 files

variable {repr gib}

/-- A name of something in a directory, as no walk along a path leaves it. -/
def Proper (part : Name) : Prop :=
  part ≠ [] ∧ part ≠ ['.'] ∧ part ≠ ['.', '.'] ∧ '/' ∉ part

def Inside (dest path : List Name) : Prop :=
  ∃ rel, rel ≠ [] ∧ (∀ part ∈ rel, Proper part) ∧ path = dest ++ rel

theorem proper_of_mem_safeParts {comps rel : List Name} (hc : ∀ c ∈ comps, '/' ∉ c)
    (h : safeParts comps = some rel) : ∀ part ∈ rel, Proper part := by
  induction comps generalizing rel with
  | nil =>
    obtain rfl : [] = rel := Option.some.inj h
    simp
  | cons c comps ih =>
    have hrest : ∀ c' ∈ comps, '/' ∉ c' := fun c' hc' => hc c' (by simp [hc'])
    rw [safeParts] at h
    split_ifs at h with hskip hbad
    · exact ih hrest h
    · obtain ⟨rel', hrel', rfl⟩ := Option.map_eq_some_iff.mp h
      intro part hpart
      rcases List.mem_cons.mp hpart with rfl | hmem
      · exact ⟨fun h => hskip (.inl h), fun h => hskip (.inr h), fun h => hbad (.inl h),
          hc part (by simp)⟩
      · exact ih hrest hrel' part hmem

theorem proper_of_safeRelpath {member : Name} {rel : List Name}
    (h : safeRelpath repr member = .ok rel) : rel ≠ [] ∧ ∀ part ∈ rel, Proper part := by
  rw [safeRelpath] at h
  split at h
  · cases h
  · cases h
  · rename_i rel' hne hparts
    obtain rfl : rel' = rel := Except.ok.inj h
    refine ⟨?_, proper_of_mem_safeParts (fun c hc => notMem_of_mem_splitOn hc) hparts⟩
    rintro rfl
    exact hne rfl

section Loops
variable {σ μ : Type} {body : σ → μ → Calls σ}

theorem mem_ops_forEach {s : σ} {ms : List μ} {op : Op Name}
    (h : op ∈ (forEach body s ms).ops) : ∃ s', ∃ m ∈ ms, op ∈ (body s' m).ops := by
  induction ms generalizing s with
  | nil => simp [forEach] at h
  | cons m ms ih =>
    rw [forEach] at h
    split at h
    · rename_i ops e hbody
      exact ⟨s, m, by simp, by rw [hbody]; exact h⟩
    · rename_i ops s' hbody
      rcases List.mem_append.mp h with h | h
      · exact ⟨s, m, by simp, by rw [hbody]; exact h⟩
      · obtain ⟨s'', m', hm', hop⟩ := ih h
        exact ⟨s'', m', by simp [hm'], hop⟩

/-- What is left of an allowance covers what the calls write. -/
structure Within (left : σ → ℤ) (s : σ) (c : Calls σ) : Prop where
  bytes : (written c.ops : ℤ) ≤ left s
  rest : ∀ s', c.ended = .ok s' → (written c.ops : ℤ) + left s' ≤ left s ∧ 0 ≤ left s'

theorem within_ok {left : σ → ℤ} {s : σ} {ops : List (Op Name)} (hops : written ops = 0)
    (hs : 0 ≤ left s) : Within left s ⟨ops, .ok s⟩ := by
  refine ⟨by simpa [hops] using hs, ?_⟩
  intro s' h
  obtain rfl : s = s' := Except.ok.inj h
  simpa [hops] using hs

theorem within_error {left : σ → ℤ} {s : σ} (e : String) (hs : 0 ≤ left s) :
    Within left s ⟨[], .error e⟩ := by
  refine ⟨by simpa using hs, ?_⟩
  intro s' h
  cases h

theorem within_after {left : σ → ℤ} {s s' : σ} {ops : List (Op Name)} {c : Calls σ}
    (hops : (written ops : ℤ) + left s' ≤ left s) (hc : Within left s' c) :
    Within left s (c.after ops) := by
  refine ⟨?_, ?_⟩
  · have := hc.bytes
    simp only [Calls.after, written_append]
    omega
  · intro s'' hend
    obtain ⟨hle, hs''⟩ := hc.rest s'' hend
    refine ⟨?_, hs''⟩
    simp only [Calls.after, written_append]
    omega

theorem within_forEach {left : σ → ℤ} {s : σ} {ms : List μ}
    (hbody : ∀ m ∈ ms, ∀ s, 0 ≤ left s → Within left s (body s m)) (hs : 0 ≤ left s) :
    Within left s (forEach body s ms) := by
  induction ms generalizing s with
  | nil => exact within_ok written_nil hs
  | cons m ms ih =>
    have hm := hbody m (by simp) s hs
    rw [forEach]
    split
    · rename_i ops e heq
      rw [heq] at hm
      exact ⟨hm.bytes, fun s' h => by cases h⟩
    · rename_i ops s' heq
      rw [heq] at hm
      obtain ⟨hle, hs'⟩ := hm.rest s' rfl
      exact within_after hle (ih (fun m' hm' => hbody m' (by simp [hm'])) hs')

end Loops

/-- A call that leaves alone what is not inside, where `dest` stands: it makes a directory that
is there, or works inside. -/
def Local (dest : List Name) (op : Op Name) : Prop :=
  (∃ p, p ≠ [] ∧ p <+: dest ∧ op = .mkdir p) ∨ Inside dest op.path

theorem local_makedirs {dest rel : List Name} (hrel : ∀ part ∈ rel, Proper part) :
    ∀ op ∈ makedirs (dest ++ rel), Local dest op := by
  intro op hop
  rw [makedirs_append, List.mem_append, List.mem_map] at hop
  rcases hop with hop | ⟨op', hop', rfl⟩
  · exact .inl (mem_makedirs.mp hop)
  · obtain ⟨p, hne, hp, rfl⟩ := mem_makedirs.mp hop'
    exact .inr ⟨p, hne, fun part hpart => hrel part (hp.subset hpart), rfl⟩

/-- The directories above a file inside, and what is done with the file itself. -/
theorem local_file {dest rel : List Name} (hne : rel ≠ []) (hrel : ∀ part ∈ rel, Proper part)
    {ops : List (Op Name)} (hops : ∀ op ∈ ops, op.path = dest ++ rel) :
    ∀ op ∈ makedirs (dest ++ rel).dropLast ++ ops, Local dest op := by
  intro op hop
  rcases List.mem_append.mp hop with hop | hop
  · rw [List.dropLast_append_of_ne_nil hne] at hop
    exact local_makedirs (fun part hpart => hrel part (List.mem_of_mem_dropLast hpart)) op hop
  · exact .inr ⟨rel, hne, hrel, hops op hop⟩

theorem local_extractMember {dest : List Name} {remaining size : ℤ} {name : Name} {isDir : Bool}
    {chunks : List (List UInt8)} :
    ∀ op ∈ (extractMember repr dest remaining name isDir size chunks).ops, Local dest op := by
  intro op hop
  rw [extractMember] at hop
  split at hop
  · simp at hop
  · rename_i rel hrel
    obtain ⟨hne, hproper⟩ := proper_of_safeRelpath hrel
    dsimp only at hop
    split_ifs at hop
    · simp at hop
    · exact local_makedirs hproper op hop
    · simp at hop
    · refine local_file hne hproper ?_ op hop
      intro op hop
      rcases List.mem_cons.mp hop with rfl | hop
      · rfl
      · obtain ⟨chunk, -, rfl⟩ := List.mem_map.mp hop
        rfl

theorem written_appends (target : List Name) (chunks : List (List UInt8)) :
    written (chunks.map (.append target)) = chunks.flatten.length := by
  induction chunks with
  | nil => rfl
  | cons chunk chunks ih =>
    rw [List.map_cons, List.flatten_cons, List.length_append, ← ih]
    simp [written, Op.bytes]

theorem within_extractMember {dest : List Name} {remaining size : ℤ} {name : Name} {isDir : Bool}
    {chunks : List (List UInt8)} (hsize : isDir = false → (chunks.flatten.length : ℤ) ≤ size)
    (h : 0 ≤ remaining) :
    Within id remaining (extractMember repr dest remaining name isDir size chunks) := by
  rw [extractMember]
  split
  · exact within_error _ h
  · rename_i rel hrel
    dsimp only
    split_ifs with hjunk hdir hless
    · exact within_ok written_nil h
    · exact within_ok (written_makedirs _) h
    · exact within_error _ h
    · have hw : written (makedirs (dest ++ rel).dropLast ++ Op.create (dest ++ rel) ::
          chunks.map (.append (dest ++ rel))) = chunks.flatten.length := by
        rw [written_append, written_makedirs, ← written_appends (dest ++ rel)]
        simp [written, Op.bytes]
      have hfile := hsize (by simpa using hdir)
      refine ⟨?_, ?_⟩
      · rw [hw]
        simp only [id]
        omega
      · intro s' hs'
        obtain rfl : remaining - size = s' := Except.ok.inj hs'
        rw [hw]
        simp only [id]
        omega

theorem local_extractTarMember {dest : List Name} {remaining : ℤ} {member : TarInfo} :
    ∀ op ∈ (extractTarMember repr dest remaining member).ops, Local dest op := by
  rw [extractTarMember]
  split_ifs
  · simp
  · simp
  · exact local_extractMember
  · simp

theorem within_extractTarMember {dest : List Name} {remaining : ℤ} {member : TarInfo}
    (hsize : member.kind = .file → (member.chunks.flatten.length : ℤ) ≤ member.size)
    (h : 0 ≤ remaining) : Within id remaining (extractTarMember repr dest remaining member) := by
  rw [extractTarMember]
  split_ifs with hpax hlink hkind
  · exact within_ok written_nil h
  · exact within_error _ h
  · refine within_extractMember ?_ h
    intro hdir
    exact hsize (hkind.resolve_right (by simpa using hdir))
  · exact within_error _ h

theorem local_copyChunks {limit : ℕ} {target : List Name} {total : ℕ}
    {chunks : List (List UInt8)} :
    ∀ op ∈ (copyChunks gib limit target total chunks).ops, op.path = target := by
  induction chunks generalizing total with
  | nil => simp [copyChunks]
  | cons chunk chunks ih =>
    rw [copyChunks]
    split_ifs
    · simp
    · intro op hop
      rcases List.mem_cons.mp hop with rfl | hop
      · rfl
      · exact ih op hop

/-- What the limit leaves. -/
def room (limit total : ℕ) : ℤ := limit - total

theorem within_copyChunks {limit : ℕ} {target : List Name} {total : ℕ}
    {chunks : List (List UInt8)} (h : 0 ≤ room limit total) :
    Within (room limit) total (copyChunks gib limit target total chunks) := by
  induction chunks generalizing total with
  | nil => exact within_ok written_nil h
  | cons chunk chunks ih =>
    rw [copyChunks]
    split_ifs with hover
    · exact within_error _ h
    · have hbytes : written [Op.append target chunk] = chunk.length := by simp [written, Op.bytes]
      refine within_after ?_ (ih ?_)
      · rw [hbytes, room, room]
        omega
      · rw [room]
        omega

theorem local_addFile {limit : ℕ} {root : List Name} {total : ℕ}
    {file : Name × List (List UInt8)} :
    ∀ op ∈ (addFile repr gib limit root total file).ops, Local root op := by
  rw [addFile]
  split
  · simp
  · rename_i rel hrel
    obtain ⟨hne, hproper⟩ := proper_of_safeRelpath hrel
    split_ifs
    · simp
    · refine local_file hne hproper ?_
      intro op hop
      rcases List.mem_cons.mp hop with rfl | hop
      · rfl
      · exact local_copyChunks op hop

theorem within_addFile {limit : ℕ} {root : List Name} {total : ℕ}
    {file : Name × List (List UInt8)} (h : 0 ≤ room limit total) :
    Within (room limit) total (addFile repr gib limit root total file) := by
  rw [addFile]
  split
  · exact within_error _ h
  · rename_i rel hrel
    split_ifs
    · exact within_ok written_nil h
    · have hcreate : written [Op.create (root ++ rel)] = 0 := rfl
      have hcopy : Within (room limit) total (copyWithLimit gib limit (root ++ rel) total file.2) :=
        within_after (by rw [hcreate]; omega) (within_copyChunks h)
      exact within_after (by rw [written_makedirs]; omega) hcopy

/-- However far the calls come. -/
structure Confined (d : Disk Name) (dest : List Name) (limit : ℕ) (done : List (Op Name))
    (d' : Disk Name) : Prop where
  inside : ∀ p, d'.get? p ≠ d.get? p → Inside dest p
  plain : ∀ rel n, rel ≠ [] → d'.get? (dest ++ rel) = some n → n.plain = true
  bytes : written done ≤ limit

section Confined
variable {d d' : Disk Name} {dest : List Name} {ops done : List (Op Name)}

/-- The directory stands, nothing but what is inside has changed, and that to plain nodes. -/
structure Held (d : Disk Name) (dest : List Name) (d' : Disk Name) : Prop where
  stands : Stands d' dest
  changed : ∀ p, d'.get? p = d.get? p ∨
    Inside dest p ∧ ∃ n : Node, d'.get? p = some n ∧ n.plain = true

theorem not_inside_of_isPrefix {p : List Name} (hp : p <+: dest) : ¬ Inside dest p := by
  rintro ⟨rel, hne, -, rfl⟩
  have := hp.length_le
  simp [hne] at this

theorem held_apply {d₁ d₂ : Disk Name} {op : Op Name} (hop : Local dest op)
    (hd : Held d dest d₁) (h : op.apply d₁ = some d₂) : Held d dest d₂ := by
  rcases hop with ⟨p, hne, hp, rfl⟩ | hin
  · rw [apply_mkdir_of_stands hd.stands hne hp] at h
    rwa [← Option.some.inj h]
  · refine ⟨?_, ?_⟩
    · intro p hne hp
      rcases get?_apply h p with heq | ⟨rfl, -⟩
      · rw [heq, hd.stands p hne hp]
      · exact absurd hin (not_inside_of_isPrefix hp)
    · intro p
      rcases get?_apply h p with heq | ⟨rfl, hn⟩
      · rw [heq]
        exact hd.changed p
      · exact .inr ⟨hin, hn⟩

theorem confined_of_local {limit : ℕ} (hstands : Stands d dest)
    (hfresh : ∀ rel, rel ≠ [] → d.get? (dest ++ rel) = none) (hlocal : ∀ op ∈ ops, Local dest op)
    (hbytes : (written ops : ℤ) ≤ limit) (hdone : done <+: ops) (hrun : run d done = some d') :
    Confined d dest limit done d' := by
  have hheld : Held d dest d' := by
    refine run_inv ?_ ⟨hstands, fun p => .inl rfl⟩ hrun
    intro op hop d₁ d₂ hd h
    exact held_apply (hlocal op (hdone.subset hop)) hd h
  refine ⟨?_, ?_, ?_⟩
  · intro p hp
    rcases hheld.changed p with heq | ⟨hin, -⟩
    · exact absurd heq hp
    · exact hin
  · intro rel n hne hn
    rcases hheld.changed (dest ++ rel) with heq | ⟨-, n', hn', hplain⟩
    · rw [heq, hfresh rel hne] at hn
      cases hn
    · rw [hn'] at hn
      rwa [← Option.some.inj hn]
  · have := written_le_of_prefix hdone
    omega

end Confined

/-- A staging directory with nothing in it. -/
def staged : Disk Name := [(["stage".toList], .dir)]

theorem stands_staged : Stands staged ["stage".toList] := by
  intro p hne hp
  obtain ⟨a, q, rfl⟩ := List.exists_cons_of_ne_nil hne
  obtain ⟨rfl, hq⟩ := List.cons_prefix_cons.mp hp
  obtain rfl : q = [] := List.prefix_nil.mp hq
  rfl

theorem fresh_staged (rel : List Name) (h : rel ≠ []) :
    staged.get? (["stage".toList] ++ rel) = none := by
  obtain ⟨a, q, rfl⟩ := List.exists_cons_of_ne_nil h
  simp [staged, Dict.get?_cons]

def quote (name : Name) : String := "'" ++ String.ofList name ++ "'"

def climbingZip : List ZipInfo :=
  [⟨"\\1\\model".toList, 3, [[1, 2], [3]]⟩, ⟨"1/../../x".toList, 9, [[4]]⟩]

def linkedTar : List TarInfo :=
  [⟨"/1/model".toList, .file, 3, [[1, 2], [3]]⟩, ⟨"2".toList, .symlink, 0, []⟩]

def oversized : List (Name × List (List UInt8)) :=
  [("./1/model".toList, [[1, 2], [3]]), ("big".toList, [[0], [0, 0]])]

end PurdueAF.ModelUploads

import PurdueAF.Dict
import Mathlib.Data.List.Infix

/-!
# Directories and files

What a path names, the calls that make directories and write files, one after the other until
one fails, and a tree put under a directory of another.
-/
namespace PurdueAF.FileTree
variable {α : Type*}

inductive Node
  | dir
  | file (bytes : List UInt8)
  | link
  | special
  deriving DecidableEq, Repr

/-- A node that is neither a link nor a special file. -/
def Node.plain : Node → Bool
  | .dir | .file _ => true
  | .link | .special => false

/-- By path from the root, which is no entry of its own. -/
abbrev Disk (α : Type*) := Dict (List α) Node

inductive Op (α : Type*)
  /-- A directory that may be there. -/
  | mkdir (path : List α)
  /-- `open(path, "wb")`. -/
  | create (path : List α)
  | append (path : List α) (chunk : List UInt8)

def Op.path : Op α → List α
  | .mkdir path | .create path | .append path _ => path

/-- How many bytes the call writes. -/
def Op.bytes : Op α → ℕ
  | .mkdir _ | .create _ => 0
  | .append _ chunk => chunk.length

def written (ops : List (Op α)) : ℕ := (ops.map Op.bytes).sum

@[simp] theorem written_nil : written ([] : List (Op α)) = 0 := rfl

@[simp] theorem written_append (ops ops' : List (Op α)) :
    written (ops ++ ops') = written ops + written ops' := by
  simp [written]

theorem written_le_of_prefix {ops ops' : List (Op α)} (h : ops <+: ops') :
    written ops ≤ written ops' := by
  obtain ⟨rest, rfl⟩ := h
  rw [written_append]
  omega

/-- `Path.mkdir(parents=True, exist_ok=True)`: from the top, as the calls that make something
come. -/
def makedirs (path : List α) : List (Op α) := path.inits.tail.map .mkdir

@[simp] theorem written_makedirs (path : List α) : written (makedirs path) = 0 := by
  have : ∀ paths : List (List α), written (paths.map Op.mkdir) = 0 := by
    intro paths
    induction paths with
    | nil => rfl
    | cons p paths ih => simpa [written, Op.bytes] using ih
  exact this _

/-- The call with its path under `base`. -/
def Op.under (base : List α) : Op α → Op α
  | .mkdir path => .mkdir (base ++ path)
  | .create path => .create (base ++ path)
  | .append path chunk => .append (base ++ path) chunk

theorem makedirs_append (base path : List α) :
    makedirs (base ++ path) = makedirs base ++ (makedirs path).map (Op.under base) := by
  have htail : (base.inits ++ path.inits.tail.map (base ++ ·)).tail =
      base.inits.tail ++ path.inits.tail.map (base ++ ·) := by
    cases base <;> simp
  rw [makedirs, List.inits_append, htail, List.map_append, List.map_map, makedirs, makedirs,
    List.map_map]
  rfl

theorem mem_tail_inits {path p : List α} : p ∈ path.inits.tail ↔ p ≠ [] ∧ p <+: path := by
  cases path with
  | nil => simp
  | cons a path =>
    simp only [List.inits, List.tail_cons, List.mem_map, List.mem_inits]
    constructor
    · rintro ⟨q, hq, rfl⟩
      exact ⟨by simp, (List.prefix_cons_inj a).mpr hq⟩
    · rintro ⟨hne, hp⟩
      obtain ⟨b, q, rfl⟩ := List.exists_cons_of_ne_nil hne
      obtain ⟨rfl, hq⟩ := List.cons_prefix_cons.mp hp
      exact ⟨q, hq, rfl⟩

theorem mem_makedirs {path : List α} {op : Op α} :
    op ∈ makedirs path ↔ ∃ p, p ≠ [] ∧ p <+: path ∧ op = .mkdir p := by
  rw [makedirs, List.mem_map]
  constructor
  · rintro ⟨p, hp, rfl⟩
    obtain ⟨hne, hpre⟩ := mem_tail_inits.mp hp
    exact ⟨p, hne, hpre, rfl⟩
  · rintro ⟨p, hne, hpre, rfl⟩
    exact ⟨p, mem_tail_inits.mpr ⟨hne, hpre⟩, rfl⟩

variable [DecidableEq α]

/-- A part of what is split at `a`. -/
theorem notMem_of_mem_splitOn {a : α} {text part : List α} (h : part ∈ text.splitOn a) :
    a ∉ part := by
  induction text generalizing part with
  | nil =>
    obtain rfl : part = [] := by simpa using h
    simp
  | cons c rest ih =>
    rw [List.splitOn_cons_eq_if_modifyHead] at h
    split_ifs at h with hc
    · rcases List.mem_cons.mp h with rfl | hmem
      · simp
      · exact ih hmem
    · obtain ⟨first, more, hsplit⟩ := List.exists_cons_of_ne_nil (List.splitOn_ne_nil a rest)
      rw [hsplit] at h ih
      rcases List.mem_cons.mp h with rfl | hmem
      · have hfirst : a ∉ first := ih (by simp)
        have hne : a ≠ c := fun heq => hc (by simp [← heq])
        simp [hfirst, hne]
      · exact ih (by simp [hmem])

/-- A call that fails gives nothing, and so does one that would follow a link. -/
def Op.apply (d : Disk α) : Op α → Option (Disk α)
  | .mkdir path =>
    match d.get? path with
    | none => some (d.set path .dir)
    | some .dir => some d
    | some _ => none
  | .create path =>
    match d.get? path with
    | none | some (.file _) => some (d.set path (.file []))
    | some _ => none
  | .append path chunk =>
    match d.get? path with
    | some (.file bytes) => some (d.set path (.file (bytes ++ chunk)))
    | _ => none

/-- The disk after calls that all went well. -/
def run (d : Disk α) : List (Op α) → Option (Disk α)
  | [] => some d
  | op :: ops =>
    match op.apply d with
    | none => none
    | some d' => run d' ops

@[simp] theorem run_nil (d : Disk α) : run d [] = some d := rfl

theorem run_cons (d : Disk α) (op : Op α) (ops : List (Op α)) :
    run d (op :: ops) = (op.apply d).bind fun d' => run d' ops := by
  rw [run]
  cases op.apply d <;> rfl

theorem run_append (d : Disk α) (ops ops' : List (Op α)) :
    run d (ops ++ ops') = (run d ops).bind fun d' => run d' ops' := by
  induction ops generalizing d with
  | nil => rfl
  | cons op ops ih =>
    rw [List.cons_append, run_cons, run_cons, Option.bind_assoc]
    congr 1
    funext d'
    exact ih d'

/-- What each call keeps, a run keeps. -/
theorem run_inv {P : Disk α → Prop} {ops : List (Op α)} {d d' : Disk α}
    (step : ∀ op ∈ ops, ∀ d d', P d → op.apply d = some d' → P d') (hd : P d)
    (hrun : run d ops = some d') : P d' := by
  induction ops generalizing d with
  | nil =>
    obtain rfl : d = d' := by simpa using hrun
    exact hd
  | cons op ops ih =>
    rw [run_cons] at hrun
    obtain ⟨d₁, h₁, hrun⟩ := Option.bind_eq_some_iff.mp hrun
    exact ih (fun op' hop' => step op' (by simp [hop'])) (step op (by simp) d d₁ hd h₁) hrun

/-- A call changes what its own path names, to a directory or a file. -/
theorem get?_apply {d d' : Disk α} {op : Op α} (h : op.apply d = some d') (p : List α) :
    d'.get? p = d.get? p ∨ p = op.path ∧ ∃ n : Node, d'.get? p = some n ∧ n.plain = true := by
  have hset : ∀ (path : List α) (n : Node), n.plain = true → d.set path n = d' → path = op.path →
      d'.get? p = d.get? p ∨ p = op.path ∧ ∃ n : Node, d'.get? p = some n ∧ n.plain = true := by
    rintro path n hn rfl rfl
    by_cases hp : p = op.path
    · exact .inr ⟨hp, n, by rw [hp, Dict.get?_set_self], hn⟩
    · exact .inl (Dict.get?_set_ne d n hp)
  cases op with
  | mkdir path =>
    rw [Op.apply] at h
    split at h
    · exact hset path .dir rfl (Option.some.inj h) rfl
    · exact .inl (by rw [Option.some.inj h])
    · cases h
  | create path =>
    rw [Op.apply] at h
    split at h
    · exact hset path (.file []) rfl (Option.some.inj h) rfl
    · exact hset path (.file []) rfl (Option.some.inj h) rfl
    · cases h
  | append path chunk =>
    rw [Op.apply] at h
    split at h
    · exact hset path _ rfl (Option.some.inj h) rfl
    · cases h

/-- Files stay files, and directories directories. -/
theorem kind_of_run {d d' : Disk α} {ops : List (Op α)} (hrun : run d ops = some d') (p : List α) :
    (d.get? p = some .dir → d'.get? p = some .dir) ∧
      ((∃ bytes, d.get? p = some (.file bytes)) → ∃ bytes, d'.get? p = some (.file bytes)) := by
  refine run_inv (P := fun d₁ => (d.get? p = some .dir → d₁.get? p = some .dir) ∧
    ((∃ bytes, d.get? p = some (.file bytes)) → ∃ bytes, d₁.get? p = some (.file bytes)))
    ?_ ⟨id, id⟩ hrun
  intro op hop d₁ d₂ hd h
  have hstep : (d₁.get? p = some .dir → d₂.get? p = some .dir) ∧
      ((∃ bytes, d₁.get? p = some (.file bytes)) → ∃ bytes, d₂.get? p = some (.file bytes)) := by
    by_cases hp : p = op.path
    · subst hp
      cases op with
      | mkdir path =>
        rw [Op.apply] at h
        simp only [Op.path]
        split at h <;> cases h <;> simp_all
      | create path =>
        rw [Op.apply] at h
        simp only [Op.path]
        split at h <;> cases h <;> simp_all
      | append path chunk =>
        rw [Op.apply] at h
        simp only [Op.path]
        split at h
        · cases h
          simp_all
        · cases h
    · rcases get?_apply h p with heq | ⟨heq, -⟩
      · rw [heq]
        exact ⟨id, id⟩
      · exact absurd heq hp
  exact ⟨fun h => hstep.1 (hd.1 h), fun h => hstep.2 (hd.2 h)⟩

theorem run_of_mem {d d' : Disk α} {ops : List (Op α)} {op : Op α} (hrun : run d ops = some d')
    (hop : op ∈ ops) : ∃ d₁ d₂ rest, op.apply d₁ = some d₂ ∧ run d₂ rest = some d' := by
  obtain ⟨front, rest, rfl⟩ := List.append_of_mem hop
  rw [run_append] at hrun
  obtain ⟨d₁, -, hrun⟩ := Option.bind_eq_some_iff.mp hrun
  rw [run_cons] at hrun
  obtain ⟨d₂, happly, hrun⟩ := Option.bind_eq_some_iff.mp hrun
  exact ⟨d₁, d₂, rest, happly, hrun⟩

theorem dir_of_run {d d' : Disk α} {ops : List (Op α)} {p : List α} (hrun : run d ops = some d')
    (hop : .mkdir p ∈ ops) : d'.get? p = some .dir := by
  obtain ⟨d₁, d₂, rest, happly, hrest⟩ := run_of_mem hrun hop
  refine (kind_of_run hrest p).1 ?_
  rw [Op.apply] at happly
  split at happly <;> cases happly <;> simp_all

theorem file_of_run {d d' : Disk α} {ops : List (Op α)} {p : List α} (hrun : run d ops = some d')
    (hop : .create p ∈ ops) : ∃ bytes, d'.get? p = some (.file bytes) := by
  obtain ⟨d₁, d₂, rest, happly, hrest⟩ := run_of_mem hrun hop
  refine (kind_of_run hrest p).2 ?_
  rw [Op.apply] at happly
  split at happly <;> cases happly <;> simp_all

/-- The path is a directory with all those above it. -/
def Stands (d : Disk α) (path : List α) : Prop :=
  ∀ p, p ≠ [] → p <+: path → d.get? p = some .dir

theorem apply_mkdir_of_stands {d : Disk α} {path p : List α} (h : Stands d path) (hne : p ≠ [])
    (hp : p <+: path) : (Op.mkdir p).apply d = some d := by
  rw [Op.apply, h p hne hp]

theorem run_makedirs_of_stands {d : Disk α} {path : List α} (h : Stands d path) :
    run d (makedirs path) = some d := by
  have hall : ∀ ops : List (Op α), (∀ op ∈ ops, op.apply d = some d) → run d ops = some d := by
    intro ops
    induction ops with
    | nil => exact fun _ => rfl
    | cons op ops ih =>
      intro hops
      rw [run_cons, hops op (by simp)]
      exact ih fun op' hop' => hops op' (by simp [hop'])
  apply hall
  intro op hop
  obtain ⟨p, hne, hp, rfl⟩ := mem_makedirs.mp hop
  exact apply_mkdir_of_stands h hne hp

/-- Directories where there is none, or a directory. -/
theorem run_mkdirs {paths : List (List α)} {d : Disk α}
    (h : ∀ p ∈ paths, d.get? p = none ∨ d.get? p = some .dir) :
    ∃ d', run d (paths.map .mkdir) = some d' ∧
      ∀ p, d'.get? p = if p ∈ paths then some .dir else d.get? p := by
  induction paths generalizing d with
  | nil => exact ⟨d, rfl, fun p => by simp⟩
  | cons path paths ih =>
    obtain ⟨d₁, h₁, hget⟩ : ∃ d₁, (Op.mkdir path).apply d = some d₁ ∧
        ∀ p, d₁.get? p = if p = path then some .dir else d.get? p := by
      rcases h path (by simp) with hp | hp
      · exact ⟨d.set path .dir, by rw [Op.apply, hp], fun p => Dict.get?_set d path p .dir⟩
      · refine ⟨d, by rw [Op.apply, hp], fun p => ?_⟩
        split_ifs with heq
        · rw [heq, hp]
        · rfl
    obtain ⟨d', hrun, hget'⟩ := ih (d := d₁) (by
      intro p hp
      rw [hget]
      split_ifs
      · exact .inr rfl
      · exact h p (by simp [hp]))
    refine ⟨d', by rw [List.map_cons, run_cons, h₁]; exact hrun, fun p => ?_⟩
    rw [hget', hget]
    by_cases hp : p = path <;> by_cases hp' : p ∈ paths <;> simp [hp, hp']

/-- The disk `d` with the tree `t` under `base`. -/
def graft (base : List α) (t d : Disk α) : Disk α := t.map (fun e => (base ++ e.1, e.2)) ++ d

/-- Nothing is under the path. -/
def Fresh (d : Disk α) (path : List α) : Prop := ∀ q, q ≠ [] → d.get? (path ++ q) = none

theorem get?_map_under (base : List α) (t : Disk α) (q : List α) :
    Dict.get? (t.map fun e => (base ++ e.1, e.2)) (base ++ q) = t.get? q := by
  induction t with
  | nil => rfl
  | cons e t ih =>
    rw [List.map_cons, Dict.get?_cons, Dict.get?_cons, ih]
    simp only [List.append_cancel_left_eq]

theorem get?_graft_under {base : List α} {t d : Disk α} (hd : Fresh d base) {q : List α}
    (hq : q ≠ []) : (graft base t d).get? (base ++ q) = t.get? q := by
  rw [graft, Dict.get?_append, get?_map_under, hd q hq, Option.or_none]

theorem get?_graft_of_not_under {base : List α} {t d : Disk α} {p : List α}
    (h : ∀ q, t.get? q ≠ none → p ≠ base ++ q) : (graft base t d).get? p = d.get? p := by
  rw [graft, Dict.get?_append, Dict.get?_eq_none_iff.mpr, Option.none_or]
  intro hp
  obtain ⟨e, he, rfl⟩ : ∃ e ∈ t, base ++ e.1 = p := by simpa using hp
  exact h e.1 (Dict.get?_ne_none_of_mem he) rfl

theorem stands_graft {base : List α} {t d : Disk α} (h : Stands d base) (ht : t.get? [] = none) :
    Stands (graft base t d) base := by
  intro p hne hp
  rw [get?_graft_of_not_under, h p hne hp]
  rintro q hq rfl
  obtain rfl : q = [] := by simpa using hp.length_le
  exact hq ht

theorem graft_set {base : List α} {t d : Disk α} (hd : Fresh d base) {q : List α} (hq : q ≠ [])
    (n : Node) : graft base (t.set q n) d = (graft base t d).set (base ++ q) n := by
  have hpop : List.filter (fun e => e.1 ≠ base ++ q) d = d := Dict.pop_of_get?_none (hd q hq)
  rw [Dict.set, Dict.set, graft, graft, List.map_cons, List.cons_append, Dict.pop, Dict.pop,
    List.filter_append, hpop, List.filter_map]
  congr 3
  apply List.filter_congr
  intro e he
  simp

theorem apply_graft {base : List α} {t d : Disk α} {op : Op α} (hd : Fresh d base)
    (hop : op.path ≠ []) :
    (op.under base).apply (graft base t d) = (op.apply t).map fun t' => graft base t' d := by
  cases op with
  | mkdir path =>
    have hne : path ≠ [] := hop
    rw [Op.under, Op.apply, Op.apply, get?_graft_under hd hne]
    split
    · rw [Option.map_some, graft_set hd hne]
    · rfl
    · rfl
  | create path =>
    have hne : path ≠ [] := hop
    rw [Op.under, Op.apply, Op.apply, get?_graft_under hd hne]
    split
    · rw [Option.map_some, graft_set hd hne]
    · rw [Option.map_some, graft_set hd hne]
    · rfl
  | append path chunk =>
    have hne : path ≠ [] := hop
    rw [Op.under, Op.apply, Op.apply, get?_graft_under hd hne]
    split
    · rw [Option.map_some, graft_set hd hne]
    · rfl

/-- Calls under a directory do to the tree under it what they do to the tree. -/
theorem run_graft {base : List α} {t d : Disk α} {ops : List (Op α)} (hd : Fresh d base)
    (hops : ∀ op ∈ ops, op.path ≠ []) :
    run (graft base t d) (ops.map (Op.under base)) =
      (run t ops).map fun t' => graft base t' d := by
  induction ops generalizing t with
  | nil => rfl
  | cons op ops ih =>
    rw [List.map_cons, run_cons, run_cons, apply_graft hd (hops op (by simp))]
    cases op.apply t with
    | none => rfl
    | some t' => exact ih fun op' hop' => hops op' (by simp [hop'])

theorem get?_root_of_run {t t' : Disk α} {ops : List (Op α)} (hops : ∀ op ∈ ops, op.path ≠ [])
    (ht : t.get? [] = none) (hrun : run t ops = some t') : t'.get? [] = none := by
  refine run_inv (P := fun t => t.get? [] = none) ?_ ht hrun
  intro op hop d d' hd h
  rcases get?_apply h [] with heq | ⟨heq, -⟩
  · rw [heq, hd]
  · exact absurd heq.symm (hops op hop)

end PurdueAF.FileTree

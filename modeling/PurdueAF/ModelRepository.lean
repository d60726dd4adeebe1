import PurdueAF.Dict
import PurdueAF.Machine

/-!
# Uploads to the model repository

Uploads are staged and validated each on its own, and `_install` moves a staged tree into place
by a test, a rename, a move and a removal, each a step of its own among those of the other
uploads.
-/
namespace PurdueAF.ModelRepository
open Machine

/-- The paths in a directory, with the content of those that are files. -/
abbrev Tree := List (List String × Option String)

def Tree.has (t : Tree) (name : String) : Bool := t.any fun e => e.1 = [name]

/-- The directory `t` under the name `base` in another. -/
def Tree.within (base : String) (t : Tree) : Tree :=
  ([base], none) :: t.map fun e => (base :: e.1, e.2)

/-- What the repository's directory holds: models, and the backups of a second, whose names start
with a dot as no model's does. -/
inductive Entry
  | model (name : String)
  | backup (name : String) (second : ℕ)
  deriving DecidableEq, Repr

inductive Pc
  | staged | validated
  /-- The model exists, and is to be renamed. -/
  | replacing
  /-- The staged tree is to be moved; `backup` is the second of the one made. -/
  | moving (backup : Option ℕ)
  /-- The move failed, and the backup is to be renamed back. -/
  | restoring (backup : ℕ)
  | removing (backup : ℕ)
  | installed | failed
  deriving DecidableEq, Repr

/-- `base` is the name of the staged directory; `found` what the test of `_install` found under
the model's name. -/
structure Upload where
  name : String
  overwrite : Bool
  base : String
  tree : Tree
  pc : Pc
  found : Option (Option Tree)
  deriving DecidableEq, Repr

structure Sys where
  entries : Dict Entry Tree
  uploads : List Upload

def start : Sys := ⟨[], []⟩

/-- Whether each step goes well, as far as the file system alone decides it. -/
inductive Action
  | upload (name : String) (overwrite : Bool) (base : String) (tree : Tree)
  | validate (i : ℕ) (ok : Bool)
  | test (i : ℕ)
  | rename (i : ℕ) (second : ℕ) (ok : Bool)
  | move (i : ℕ) (ok : Bool)
  | restore (i : ℕ) (ok : Bool)
  /-- `rmtree` that ignores errors: what is left of the backup. -/
  | remove (i : ℕ) (left : Option Tree)

def put (s : Sys) (i : ℕ) (u : Upload) (entries : Dict Entry Tree) : Sys :=
  ⟨entries, s.uploads.set i u⟩

/-- `Path.rename` of a directory: its new name must be free, or an empty directory's. -/
def renameDir (entries : Dict Entry Tree) (source target : Entry) : Option (Dict Entry Tree) :=
  match entries.get? source with
  | none => none
  | some t =>
    if (entries.get? target).all (· = []) then some ((entries.pop source).set target t) else none

/-- `shutil.move` of a directory: into the target where that is a directory itself. -/
def moveDir (entries : Dict Entry Tree) (tree : Tree) (base : String) (target : Entry) :
    Option (Dict Entry Tree) :=
  match entries.get? target with
  | none => some (entries.set target tree)
  | some t => if t.has base then none else some (entries.set target (t ++ tree.within base))

def testStep (s : Sys) (i : ℕ) (u : Upload) : Sys :=
  let found := s.entries.get? (.model u.name)
  let pc := match found with
    | none => .moving none
    | some _ => if u.overwrite then .replacing else .failed
  put s i { u with pc := pc, found := some found } s.entries

def renameStep (s : Sys) (i : ℕ) (u : Upload) (second : ℕ) (ok : Bool) : Sys :=
  match if ok then renameDir s.entries (.model u.name) (.backup u.name second) else none with
  | some entries => put s i { u with pc := .moving (some second) } entries
  | none => put s i { u with pc := .failed } s.entries

def moveStep (s : Sys) (i : ℕ) (u : Upload) (backup : Option ℕ) (ok : Bool) : Sys :=
  match if ok then moveDir s.entries u.tree u.base (.model u.name) else none, backup with
  | some entries, some b => put s i { u with pc := .removing b } entries
  | some entries, none => put s i { u with pc := .installed } entries
  | none, some b => put s i { u with pc := .restoring b } s.entries
  | none, none => put s i { u with pc := .failed } s.entries

def restoreStep (s : Sys) (i : ℕ) (u : Upload) (backup : ℕ) (ok : Bool) : Sys :=
  match if ok then renameDir s.entries (.backup u.name backup) (.model u.name) else none with
  | some entries => put s i { u with pc := .failed } entries
  | none => put s i { u with pc := .failed } s.entries

def removeStep (s : Sys) (i : ℕ) (u : Upload) (backup : ℕ) (left : Option Tree) : Sys :=
  put s i { u with pc := .installed } <|
    match left with
    | none => s.entries.pop (.backup u.name backup)
    | some t => s.entries.set (.backup u.name backup) t

/-- `valid tree name` is whether `validate_model_dir` finds no error. -/
def step (valid : Tree → String → Bool) (s : Sys) : Action → Option Sys
  | .upload name overwrite base tree =>
    some { s with uploads := s.uploads ++ [⟨name, overwrite, base, tree, .staged, none⟩] }
  | .validate i ok =>
    match s.uploads[i]? with
    | some u =>
      if u.pc = .staged then
        some (put s i { u with pc := if ok && valid u.tree u.name then .validated else .failed }
          s.entries)
      else none
    | none => none
  | .test i =>
    match s.uploads[i]? with
    | some u => if u.pc = .validated then some (testStep s i u) else none
    | none => none
  | .rename i second ok =>
    match s.uploads[i]? with
    | some u => if u.pc = .replacing then some (renameStep s i u second ok) else none
    | none => none
  | .move i ok =>
    match s.uploads[i]? with
    | some u =>
      match u.pc with
      | .moving backup => some (moveStep s i u backup ok)
      | _ => none
    | none => none
  | .restore i ok =>
    match s.uploads[i]? with
    | some u =>
      match u.pc with
      | .restoring backup => some (restoreStep s i u backup ok)
      | _ => none
    | none => none
  | .remove i left =>
    match s.uploads[i]? with
    | some u =>
      match u.pc with
      | .removing backup => some (removeStep s i u backup left)
      | _ => none
    | none => none

/-- Between the test and the return of `_install`. -/
def Pc.installing : Pc → Bool
  | .replacing | .moving _ | .restoring _ | .removing _ => true
  | _ => false

/-- The tree is the staged tree of an upload that passed validation under the name, and so came
to `_install`. -/
def Whole (valid : Tree → String → Bool) (s : Sys) (name : String) (t : Tree) : Prop :=
  ∃ u ∈ s.uploads, u.name = name ∧ u.tree = t ∧ u.found.isSome ∧ valid t name = true

/-- The name is free for as long as an upload that replaces its model takes from its rename to
its move. -/
def Aside (s : Sys) (name : String) : Prop :=
  ∃ u ∈ s.uploads, u.name = name ∧ ∃ b, u.pc = .moving (some b) ∨ u.pc = .restoring b

structure Shows (valid : Tree → String → Bool) (s : Sys) : Prop where
  whole : ∀ name t, s.entries.get? (.model name) = some t → Whole valid s name t
  kept : ∀ u ∈ s.uploads, u.pc = .installed →
    (s.entries.get? (.model u.name)).isSome ∨ Aside s u.name
  once : ∀ name, s.uploads.countP (fun u => u.name = name && !u.overwrite && u.pc = .installed) ≤ 1

section Invariant
variable (valid : Tree → String → Bool)

/-- What an upload knows of its model's name, by where it stands. -/
def Stands (s : Sys) (u : Upload) : Prop :=
  match u.pc with
  | .replacing => u.overwrite = true ∧
    ∃ t, s.entries.get? (.model u.name) = some t ∧ u.found = some (some t)
  | .moving none => s.entries.get? (.model u.name) = none ∧ u.found = some none
  | .moving (some b) | .restoring b => u.overwrite = true ∧
    s.entries.get? (.model u.name) = none ∧
    ∃ t, s.entries.get? (.backup u.name b) = some t ∧ u.found = some (some t) ∧
      Whole valid s u.name t
  | .removing _ => u.overwrite = true ∧ (s.entries.get? (.model u.name)).isSome
  | .staged | .validated => u.found = none
  | .installed | .failed => True

structure Sound (s : Sys) : Prop where
  shows : Shows valid s
  validated : ∀ u ∈ s.uploads, u.pc ≠ .staged → u.pc ≠ .failed → valid u.tree u.name = true
  exclusive : Exclusive (·.pc.installing) (·.name) s.uploads
  stands : ∀ u ∈ s.uploads, Stands valid s u

end Invariant

/-- Nothing changes outside a name and its backups. -/
def Outside (entries entries' : Dict Entry Tree) (name : String) : Prop :=
  ∀ n, n ≠ name → entries'.get? (.model n) = entries.get? (.model n) ∧
    ∀ b, entries'.get? (.backup n b) = entries.get? (.backup n b)

theorem outside_rfl (entries : Dict Entry Tree) (name : String) : Outside entries entries name :=
  fun _ _ => ⟨rfl, fun _ => rfl⟩

section Move
variable {valid : Tree → String → Bool} {s : Sys} {i : ℕ} {u u' : Upload}
  {entries : Dict Entry Tree}

/-- A step of an upload keeps its name, tree and mode. -/
structure SameUpload (u u' : Upload) : Prop where
  name : u'.name = u.name
  tree : u'.tree = u.tree
  overwrite : u'.overwrite = u.overwrite
  found : u.found.isSome → u'.found.isSome

theorem sameUpload_pc (u : Upload) (pc : Pc) : SameUpload u { u with pc := pc } :=
  ⟨rfl, rfl, rfl, id⟩

theorem whole_put (hi : s.uploads[i]? = some u) (hu : SameUpload u u') {name : String} {t : Tree}
    (h : Whole valid s name t) : Whole valid (put s i u' entries) name t := by
  obtain ⟨v, hv, hname, htree, hfound, hvalid⟩ := h
  obtain ⟨front, back, hsplit, -, hset⟩ := split_set hi
  rw [hsplit, List.mem_append, List.mem_cons] at hv
  have hmem : ∀ w, w ∈ front ++ u' :: back → w ∈ (put s i u' entries).uploads := by
    intro w hw
    show w ∈ s.uploads.set i u'
    rwa [hset]
  rcases hv with hv | rfl | hv
  · exact ⟨v, hmem v (by simp [hv]), hname, htree, hfound, hvalid⟩
  · exact ⟨u', hmem u' (by simp), hu.name.trans hname, hu.tree.trans htree, hu.found hfound,
      hvalid⟩
  · exact ⟨v, hmem v (by simp [hv]), hname, htree, hfound, hvalid⟩

/-- What an upload knows stays true where nothing of its name changes. -/
theorem stands_of_same {s' : Sys} {v : Upload}
    (hsame : v.pc.installing = true →
      s'.entries.get? (.model v.name) = s.entries.get? (.model v.name) ∧
        ∀ b, s'.entries.get? (.backup v.name b) = s.entries.get? (.backup v.name b))
    (hwhole : ∀ t, Whole valid s v.name t → Whole valid s' v.name t)
    (h : Stands valid s v) : Stands valid s' v := by
  unfold Stands at h ⊢
  cases hpc : v.pc with
  | staged => simpa [hpc] using h
  | validated => simpa [hpc] using h
  | installed => trivial
  | failed => trivial
  | replacing =>
    obtain ⟨hmodel, -⟩ := hsame (by rw [hpc]; rfl)
    rw [hpc] at h
    obtain ⟨ho, t, ht, hf⟩ := h
    exact ⟨ho, t, hmodel.trans ht, hf⟩
  | removing b =>
    obtain ⟨hmodel, -⟩ := hsame (by rw [hpc]; rfl)
    rw [hpc] at h
    exact ⟨h.1, by rw [hmodel]; exact h.2⟩
  | restoring b =>
    obtain ⟨hmodel, hbackup⟩ := hsame (by rw [hpc]; rfl)
    rw [hpc] at h
    obtain ⟨ho, hnone, t, ht, hf, hw⟩ := h
    exact ⟨ho, hmodel.trans hnone, t, (hbackup b).trans ht, hf, hwhole t hw⟩
  | moving backup =>
    obtain ⟨hmodel, hbackup⟩ := hsame (by rw [hpc]; rfl)
    rw [hpc] at h
    cases backup with
    | none => exact ⟨hmodel.trans h.1, h.2⟩
    | some b =>
      obtain ⟨ho, hnone, t, ht, hf, hw⟩ := h
      exact ⟨ho, hmodel.trans hnone, t, (hbackup b).trans ht, hf, hwhole t hw⟩

theorem stands_put {v : Upload} (hi : s.uploads[i]? = some u) (hu : SameUpload u u')
    (hout : Outside s.entries entries u.name)
    (hother : v.pc.installing = true → v.name ≠ u.name ∨ entries = s.entries)
    (h : Stands valid s v) : Stands valid (put s i u' entries) v := by
  refine stands_of_same ?_ (fun _ => whole_put hi hu) h
  intro hinst
  rcases hother hinst with hne | rfl
  · exact hout v.name hne
  · exact ⟨rfl, fun _ => rfl⟩

/-- What a step of the upload at `i` has to show for the invariant to hold after it. -/
structure Moves (valid : Tree → String → Bool) (s : Sys) (i : ℕ) (u u' : Upload)
    (entries : Dict Entry Tree) : Prop where
  at_i : s.uploads[i]? = some u
  same : SameUpload u u'
  was : u.pc ≠ .installed
  outside : Outside s.entries entries u.name
  others : ∀ (j : ℕ) (v : Upload), j ≠ i → s.uploads[j]? = some v → v.pc.installing = true →
    v.name ≠ u.name ∨ entries = s.entries ∧ u'.pc.installing = false
  validated : u'.pc ≠ .staged → u'.pc ≠ .failed → valid u.tree u.name = true
  stands : Stands valid (put s i u' entries) u'
  whole : ∀ t, entries.get? (.model u.name) = some t → Whole valid s u.name t
  kept : u'.pc = .installed ∨ (∃ v ∈ s.uploads, v.name = u.name ∧ v.pc = .installed) →
    (entries.get? (.model u.name)).isSome ∨ Aside (put s i u' entries) u.name
  once : u'.pc = .installed → u.overwrite = false →
    ∀ v ∈ s.uploads, v.name = u.name → v.pc ≠ .installed

theorem mem_put (hi : s.uploads[i]? = some u) {v : Upload}
    (hv : v ∈ (put s i u' entries).uploads) : v = u' ∨ ∃ j, j ≠ i ∧ s.uploads[j]? = some v := by
  obtain ⟨j, hj⟩ := List.mem_iff_getElem?.mp hv
  rcases getElem?_set_cases hi hj with ⟨-, rfl⟩ | ⟨hne, hj⟩
  · exact .inl rfl
  · exact .inr ⟨j, hne, hj⟩

theorem mem_put_of_ne (hi : s.uploads[i]? = some u) {v : Upload} (hv : v ∈ s.uploads)
    (hne : v ≠ u) : v ∈ (put s i u' entries).uploads := by
  obtain ⟨front, back, hsplit, -, hset⟩ := split_set hi
  show v ∈ s.uploads.set i u'
  rw [hset]
  rw [hsplit, List.mem_append, List.mem_cons] at hv
  rcases hv with hv | rfl | hv
  · simp [hv]
  · exact absurd rfl hne
  · simp [hv]

theorem shows_put (hm : Moves valid s i u u' entries) (h : Shows valid s) :
    Shows valid (put s i u' entries) := by
  refine ⟨?_, ?_, ?_⟩
  · intro name t ht
    by_cases hname : name = u.name
    · exact hname ▸ whole_put hm.at_i hm.same (hm.whole t (hname ▸ ht))
    · have hsame := (hm.outside name hname).1
      exact whole_put hm.at_i hm.same (h.whole name t (hsame.symm.trans ht))
  · intro v hv hpc
    rcases mem_put hm.at_i hv with rfl | ⟨j, -, hj⟩
    · rw [hm.same.name]
      exact hm.kept (.inl hpc)
    · have hmem := List.mem_of_getElem? hj
      by_cases hname : v.name = u.name
      · rw [hname]
        exact hm.kept (.inr ⟨v, hmem, hname, hpc⟩)
      · rcases h.kept v hmem hpc with hsome | ⟨w, hw, hwname, hwpc⟩
        · refine .inl ?_
          rw [show (put s i u' entries).entries = entries from rfl, (hm.outside v.name hname).1]
          exact hsome
        · have hwu : w ≠ u := fun heq => hname (hwname.symm.trans (heq ▸ rfl))
          exact .inr ⟨w, mem_put_of_ne hm.at_i hw hwu, hwname, hwpc⟩
  · intro name
    obtain ⟨front, back, hsplit, -, hset⟩ := split_set hm.at_i
    have hold := h.once name
    show (s.uploads.set i u').countP _ ≤ 1
    rw [hset]
    rw [hsplit] at hold
    simp only [List.countP_append, List.countP_cons] at hold ⊢
    have hwas : (decide (u.name = name) && !u.overwrite && decide (u.pc = .installed)) = false := by
      simp [hm.was]
    rw [hwas] at hold
    by_cases hnow : (decide (u'.name = name) && !u'.overwrite && decide (u'.pc = .installed)) = true
    · have hcount := hnow
      simp only [Bool.and_eq_true, decide_eq_true_eq, Bool.not_eq_true'] at hnow
      obtain ⟨⟨hname, hover⟩, hpc⟩ := hnow
      have hnone := hm.once hpc (hm.same.overwrite ▸ hover)
      have hzero : ∀ l : List Upload, (∀ v ∈ l, v ∈ s.uploads) → l.countP (fun u =>
          decide (u.name = name) && !u.overwrite && decide (u.pc = .installed)) = 0 := by
        intro l hl
        rw [List.countP_eq_zero]
        intro v hv
        simp only [Bool.and_eq_true, decide_eq_true_eq, not_and]
        intro hvn
        exact hnone v (hl v hv) (hvn.1.trans (hname.symm.trans hm.same.name))
      rw [hzero front fun v hv => by rw [hsplit]; simp [hv],
        hzero back fun v hv => by rw [hsplit]; simp [hv]]
      split_ifs
      omega
    · rw [if_neg hnow]
      simpa using hold

theorem sound_put (hm : Moves valid s i u u' entries) (h : Sound valid s) :
    Sound valid (put s i u' entries) := by
  refine ⟨shows_put hm h.shows, ?_, ?_, ?_⟩
  · intro v hv hstaged hfailed
    rcases mem_put hm.at_i hv with rfl | ⟨j, -, hj⟩
    · rw [hm.same.name, hm.same.tree]
      exact hm.validated hstaged hfailed
    · exact h.validated v (List.mem_of_getElem? hj) hstaged hfailed
  · refine h.exclusive.set hm.at_i hm.same.name ?_
    intro hinst' j v hj hv hinst
    rcases hm.others j v hj hv hinst with hne | ⟨-, hnot⟩
    · exact hne
    · rw [hinst'] at hnot
      cases hnot
  · intro v hv
    rcases mem_put hm.at_i hv with rfl | ⟨j, hj, hjv⟩
    · exact hm.stands
    · have hother : v.pc.installing = true → v.name ≠ u.name ∨ entries = s.entries :=
        fun hinst => (hm.others j v hj hjv hinst).imp_right And.left
      exact stands_put hm.at_i hm.same hm.outside hother (h.stands v (List.mem_of_getElem? hjv))

theorem renameDir_eq_some {source target : Entry} {entries entries' : Dict Entry Tree}
    (h : renameDir entries source target = some entries') :
    ∃ t, entries.get? source = some t ∧ entries' = (entries.pop source).set target t := by
  unfold renameDir at h
  split at h
  · cases h
  · next t ht =>
    split_ifs at h
    exact ⟨t, ht, (Option.some.inj h).symm⟩

theorem outside_set (entries : Dict Entry Tree) (name : String) (t : Tree) :
    Outside entries (entries.set (.model name) t) name := by
  intro n hn
  exact ⟨Dict.get?_set_ne _ _ (by simpa using hn), fun b => Dict.get?_set_ne _ _ (by simp)⟩

theorem outside_rename (entries : Dict Entry Tree) (name : String) (b : ℕ) (t : Tree) :
    Outside entries ((entries.pop (.model name)).set (.backup name b) t) name := by
  intro n hn
  refine ⟨?_, fun c => ?_⟩
  · rw [Dict.get?_set_ne _ _ (by simp), Dict.get?_pop_ne _ (by simpa using hn)]
  · rw [Dict.get?_set_ne _ _ (by simp [hn]), Dict.get?_pop_ne _ (by simp)]

theorem outside_restore (entries : Dict Entry Tree) (name : String) (b : ℕ) (t : Tree) :
    Outside entries ((entries.pop (.backup name b)).set (.model name) t) name := by
  intro n hn
  refine ⟨?_, fun c => ?_⟩
  · rw [Dict.get?_set_ne _ _ (by simpa using hn), Dict.get?_pop_ne _ (by simp)]
  · rw [Dict.get?_set_ne _ _ (by simp), Dict.get?_pop_ne _ (by simp [hn])]

/-- A step that leaves the directory alone and does not install. -/
theorem moves_pc (hi : s.uploads[i]? = some u) (hu : SameUpload u u') (hwas : u.pc ≠ .installed)
    (hnot : u'.pc.installing = false) (hpc : u'.pc ≠ .installed)
    (hvalid : u'.pc ≠ .staged → u'.pc ≠ .failed → valid u.tree u.name = true)
    (hstands : Stands valid (put s i u' s.entries) u')
    (hnoaside : ∀ b, u.pc ≠ .moving (some b) ∧ u.pc ≠ .restoring b) (h : Sound valid s) :
    Moves valid s i u u' s.entries where
  at_i := hi
  same := hu
  was := hwas
  outside := outside_rfl s.entries u.name
  others := fun _ _ _ _ _ => .inr ⟨rfl, hnot⟩
  validated := hvalid
  stands := hstands
  whole := h.shows.whole u.name
  kept := by
    rintro (hinst | ⟨v, hv, hname, hinst⟩)
    · exact absurd hinst hpc
    · rcases h.shows.kept v hv hinst with hsome | ⟨w, hw, hwname, b, hwpc⟩
      · exact .inl (hname ▸ hsome)
      · have hwu : w ≠ u := by
          rintro rfl
          rcases hwpc with hwpc | hwpc
          · exact (hnoaside b).1 hwpc
          · exact (hnoaside b).2 hwpc
        exact .inr ⟨w, mem_put_of_ne hi hw hwu, hwname.trans hname, b, hwpc⟩
  once := fun hinst => absurd hinst hpc

theorem mem_put_self (hi : s.uploads[i]? = some u) : u' ∈ (put s i u' entries).uploads := by
  obtain ⟨front, back, -, -, hset⟩ := split_set hi
  show u' ∈ s.uploads.set i u'
  rw [hset]
  simp

theorem aside_put (hi : s.uploads[i]? = some u) (hu : SameUpload u u') {b : ℕ}
    (hpc : u'.pc = .moving (some b) ∨ u'.pc = .restoring b) :
    Aside (put s i u' entries) u.name :=
  ⟨u', mem_put_self hi, hu.name, b, hpc⟩

/-- Where the name is free and no one else is at it, no upload of it is installed. -/
theorem not_installed_of_free (h : Sound valid s) (hi : s.uploads[i]? = some u)
    (ha : Alone (·.pc.installing) (·.name) s.uploads i u)
    (hu : ∀ b, u.pc ≠ .moving (some b) ∧ u.pc ≠ .restoring b)
    (hfree : s.entries.get? (.model u.name) = none) :
    ∀ v ∈ s.uploads, v.name = u.name → v.pc ≠ .installed := by
  intro v hv hname hpc
  rcases h.shows.kept v hv hpc with hsome | ⟨w, hw, hwname, b, hwpc⟩
  · rw [hname, hfree] at hsome
    cases hsome
  · obtain ⟨j, hj⟩ := List.mem_iff_getElem?.mp hw
    have hinst : w.pc.installing = true := by rcases hwpc with hp | hp <;> rw [hp] <;> rfl
    have hne : j ≠ i := by
      rintro rfl
      obtain rfl : u = w := Option.some.inj (hi.symm.trans hj)
      rcases hwpc with hp | hp
      · exact (hu b).1 hp
      · exact (hu b).2 hp
    exact ha j w hne hj hinst (hwname.trans hname)

theorem sound_test (hi : s.uploads[i]? = some u) (hpc : u.pc = .validated)
    (ha : Alone (·.pc.installing) (·.name) s.uploads i u) (h : Sound valid s) :
    Sound valid (testStep s i u) := by
  have hmem := List.mem_of_getElem? hi
  have hvalid : valid u.tree u.name = true :=
    h.validated u hmem (by rw [hpc]; decide) (by rw [hpc]; decide)
  have hu : ∀ b, u.pc ≠ .moving (some b) ∧ u.pc ≠ .restoring b := by simp [hpc]
  unfold testStep
  cases hfound : s.entries.get? (.model u.name) with
  | none =>
    have hnone := not_installed_of_free h hi ha hu hfound
    refine sound_put (u := u) ⟨hi, ⟨rfl, rfl, rfl, fun _ => rfl⟩, by simp [hpc], outside_rfl _ _,
      fun j v hj hv hvi => .inl (ha j v hj hv hvi), fun _ _ => hvalid, ⟨hfound, rfl⟩,
      h.shows.whole u.name, ?_, fun hinst => by cases hinst⟩ h
    rintro (hinst | ⟨v, hv, hname, hinst⟩)
    · cases hinst
    · exact absurd hinst (hnone v hv hname)
  | some t =>
    dsimp only
    split_ifs with hover
    · refine sound_put (u := u) ⟨hi, ⟨rfl, rfl, rfl, fun _ => rfl⟩, by simp [hpc], outside_rfl _ _,
        fun j v hj hv hvi => .inl (ha j v hj hv hvi), fun _ _ => hvalid,
        ⟨hover, t, hfound, rfl⟩, h.shows.whole u.name, fun _ => .inl ?_,
        fun hinst => by cases hinst⟩ h
      rw [hfound]
      rfl
    · exact sound_put (moves_pc hi ⟨rfl, rfl, rfl, fun _ => rfl⟩ (by simp [hpc]) rfl (by simp)
        (by simp) trivial hu h) h

theorem sound_rename (hi : s.uploads[i]? = some u) (hpc : u.pc = .replacing) (second : ℕ)
    (ok : Bool) (h : Sound valid s) : Sound valid (renameStep s i u second ok) := by
  have hmem := List.mem_of_getElem? hi
  have hinst : u.pc.installing = true := by rw [hpc]; rfl
  have hvalid : valid u.tree u.name = true :=
    h.validated u hmem (by rw [hpc]; decide) (by rw [hpc]; decide)
  have hstands := h.stands u hmem
  simp only [Stands, hpc] at hstands
  obtain ⟨hover, t, ht, hfound⟩ := hstands
  unfold renameStep
  split
  · next entries' hren =>
    split_ifs at hren
    obtain ⟨t', ht', rfl⟩ := renameDir_eq_some hren
    obtain rfl : t = t' := Option.some.inj (ht.symm.trans ht')
    have hfree : ((s.entries.pop (.model u.name)).set (.backup u.name second) t).get?
        (.model u.name) = none := by
      rw [Dict.get?_set_ne _ _ (by simp), Dict.get?_pop_self]
    refine sound_put (u := u) ⟨hi, sameUpload_pc u _, by simp [hpc], outside_rename _ _ _ _, ?_,
      fun _ _ => hvalid, ⟨hover, hfree, t, Dict.get?_set_self .., hfound, ?_⟩, ?_, ?_,
      fun hinst' => by cases hinst'⟩ h
    · exact fun j v hj hv hvi => .inl (h.exclusive.alone hi hinst j v hj hv hvi)
    · exact whole_put hi (sameUpload_pc u _) (h.shows.whole u.name t ht)
    · intro t' ht'
      rw [hfree] at ht'
      cases ht'
    · exact fun _ => .inr (aside_put hi (sameUpload_pc u _) (.inl rfl))
  · exact sound_put (moves_pc hi (sameUpload_pc u _) (by simp [hpc]) rfl (by simp) (by simp) trivial
      (by simp [hpc]) h) h

theorem sound_move (hi : s.uploads[i]? = some u) {backup : Option ℕ} (hpc : u.pc = .moving backup)
    (ok : Bool) (h : Sound valid s) : Sound valid (moveStep s i u backup ok) := by
  have hmem := List.mem_of_getElem? hi
  have hinst : u.pc.installing = true := by rw [hpc]; rfl
  have hvalid : valid u.tree u.name = true :=
    h.validated u hmem (by rw [hpc]; simp) (by rw [hpc]; simp)
  have halone := h.exclusive.alone hi hinst
  have hstands := h.stands u hmem
  have hfree : s.entries.get? (.model u.name) = none := by
    cases backup with
    | none =>
      simp only [Stands, hpc] at hstands
      exact hstands.1
    | some b =>
      simp only [Stands, hpc] at hstands
      exact hstands.2.1
  have hdone : u.found.isSome := by
    cases backup with
    | none =>
      simp only [Stands, hpc] at hstands
      rw [hstands.2]
      rfl
    | some b =>
      simp only [Stands, hpc] at hstands
      obtain ⟨-, -, t, -, hfound, -⟩ := hstands
      rw [hfound]
      rfl
  have hput : moveDir s.entries u.tree u.base (.model u.name) =
      some (s.entries.set (.model u.name) u.tree) := by
    simp [moveDir, hfree]
  have hwhole : ∀ t, (s.entries.set (.model u.name) u.tree).get? (.model u.name) = some t →
      Whole valid s u.name t := by
    intro t ht
    rw [Dict.get?_set_self] at ht
    obtain rfl := Option.some.inj ht
    exact ⟨u, hmem, rfl, rfl, hdone, hvalid⟩
  have hsome : ((s.entries.set (.model u.name) u.tree).get? (.model u.name)).isSome := by
    rw [Dict.get?_set_self]
    rfl
  unfold moveStep
  cases ok with
  | true =>
    rw [if_pos rfl, hput]
    cases backup with
    | none =>
      have hnone := not_installed_of_free h hi halone (by simp [hpc]) hfree
      exact sound_put (u := u) ⟨hi, sameUpload_pc u _, by simp [hpc], outside_set _ _ _,
        fun j v hj hv hvi => .inl (halone j v hj hv hvi), fun _ _ => hvalid, trivial,
        hwhole, fun _ => .inl hsome, fun _ _ => hnone⟩ h
    | some b =>
      simp only [Stands, hpc] at hstands
      exact sound_put (u := u) ⟨hi, sameUpload_pc u _, by simp [hpc], outside_set _ _ _,
        fun j v hj hv hvi => .inl (halone j v hj hv hvi), fun _ _ => hvalid,
        ⟨hstands.1, hsome⟩, hwhole, fun _ => .inl hsome, fun hinst' => by cases hinst'⟩ h
  | false =>
    rw [if_neg (by simp)]
    cases backup with
    | none =>
      exact sound_put (moves_pc hi (sameUpload_pc u _) (by simp [hpc]) rfl (by simp) (by simp)
        trivial (by simp [hpc]) h) h
    | some b =>
      simp only [Stands, hpc] at hstands
      obtain ⟨hover, -, t, ht, hfound, hw⟩ := hstands
      exact sound_put (u := u) ⟨hi, sameUpload_pc u _, by simp [hpc], outside_rfl _ _,
        fun j v hj hv hvi => .inl (halone j v hj hv hvi), fun _ _ => hvalid,
        ⟨hover, hfree, t, ht, hfound, whole_put hi (sameUpload_pc u _) hw⟩, h.shows.whole u.name,
        fun _ => .inr (aside_put hi (sameUpload_pc u _) (.inr rfl)),
        fun hinst' => by cases hinst'⟩ h

theorem sound_restore (hi : s.uploads[i]? = some u) {b : ℕ} (hpc : u.pc = .restoring b)
    (h : Sound valid s) : Sound valid (restoreStep s i u b true) := by
  have hmem := List.mem_of_getElem? hi
  have hstands := h.stands u hmem
  simp only [Stands, hpc] at hstands
  obtain ⟨-, hfree, t, ht, -, hw⟩ := hstands
  have hren : renameDir s.entries (.backup u.name b) (.model u.name) =
      some ((s.entries.pop (.backup u.name b)).set (.model u.name) t) := by
    simp [renameDir, ht, hfree]
  have halone := h.exclusive.alone hi (by rw [hpc]; rfl)
  unfold restoreStep
  rw [if_pos rfl, hren]
  refine sound_put ⟨hi, sameUpload_pc u _, by simp [hpc], outside_restore _ _ _ _,
    fun j v hj hv hvi => .inl (halone j v hj hv hvi), by simp, trivial, ?_, ?_, by simp⟩ h
  · intro t' ht'
    rw [Dict.get?_set_self] at ht'
    obtain rfl := Option.some.inj ht'
    exact hw
  · intro _
    rw [Dict.get?_set_self]
    exact .inl rfl

theorem sound_remove (hi : s.uploads[i]? = some u) {b : ℕ} (hpc : u.pc = .removing b)
    (left : Option Tree) (h : Sound valid s) : Sound valid (removeStep s i u b left) := by
  have hmem := List.mem_of_getElem? hi
  have hvalid : valid u.tree u.name = true :=
    h.validated u hmem (by rw [hpc]; simp) (by rw [hpc]; simp)
  have hstands := h.stands u hmem
  simp only [Stands, hpc] at hstands
  obtain ⟨hover, hsome⟩ := hstands
  have halone := h.exclusive.alone hi (by rw [hpc]; rfl)
  have hmodel : ∀ entries, (∀ n, entries.get? (.model n) = s.entries.get? (.model n)) →
      Outside s.entries entries u.name →
      Sound valid (put s i { u with pc := .installed } entries) := by
    intro entries hsame hout
    refine sound_put ⟨hi, sameUpload_pc u _, by simp [hpc], hout,
      fun j v hj hv hvi => .inl (halone j v hj hv hvi), fun _ _ => hvalid, trivial, ?_, ?_, ?_⟩ h
    · intro t ht
      exact h.shows.whole u.name t ((hsame u.name).symm.trans ht)
    · intro _
      rw [hsame]
      exact .inl hsome
    · intro _ hnot
      rw [hover] at hnot
      cases hnot
  unfold removeStep
  cases left with
  | none =>
    refine hmodel _ (fun n => Dict.get?_pop_ne _ (by simp)) fun n hn => ⟨?_, fun c => ?_⟩
    · exact Dict.get?_pop_ne _ (by simp)
    · exact Dict.get?_pop_ne _ (by simp [hn])
  | some t =>
    refine hmodel _ (fun n => Dict.get?_set_ne _ _ (by simp)) fun n hn => ⟨?_, fun c => ?_⟩
    · exact Dict.get?_set_ne _ _ (by simp)
    · exact Dict.get?_set_ne _ _ (by simp [hn])

theorem sound_validate (hi : s.uploads[i]? = some u) (hpc : u.pc = .staged) (ok : Bool)
    (h : Sound valid s) : Sound valid (put s i
      { u with pc := if ok && valid u.tree u.name then .validated else .failed } s.entries) := by
  have hstands := h.stands u (List.mem_of_getElem? hi)
  simp only [Stands, hpc] at hstands
  have hu : ∀ b, u.pc ≠ .moving (some b) ∧ u.pc ≠ .restoring b := by simp [hpc]
  split_ifs with hgood
  · have hvalid : valid u.tree u.name = true := (Bool.and_eq_true_iff.mp hgood).2
    exact sound_put (moves_pc hi (sameUpload_pc u _) (by simp [hpc]) rfl (by simp)
      (fun _ _ => hvalid) hstands hu h) h
  · exact sound_put (moves_pc hi (sameUpload_pc u _) (by simp [hpc]) rfl (by simp) (by simp)
      trivial hu h) h

end Move

section Steps
variable {valid : Tree → String → Bool} {s s' : Sys} {a : Action}

/-- What a step does, with where the upload that makes it stands. -/
inductive Does (valid : Tree → String → Bool) (s : Sys) : Action → Sys → Prop
  | upload (name : String) (overwrite : Bool) (base : String) (tree : Tree) :
    Does valid s (.upload name overwrite base tree)
      { s with uploads := s.uploads ++ [⟨name, overwrite, base, tree, .staged, none⟩] }
  | validate {i u} (ok : Bool) (hi : s.uploads[i]? = some u) (hpc : u.pc = .staged) :
    Does valid s (.validate i ok) (put s i
      { u with pc := if ok && valid u.tree u.name then .validated else .failed } s.entries)
  | test {i u} (hi : s.uploads[i]? = some u) (hpc : u.pc = .validated) :
    Does valid s (.test i) (testStep s i u)
  | rename {i u} (second : ℕ) (ok : Bool) (hi : s.uploads[i]? = some u) (hpc : u.pc = .replacing) :
    Does valid s (.rename i second ok) (renameStep s i u second ok)
  | move {i u backup} (ok : Bool) (hi : s.uploads[i]? = some u) (hpc : u.pc = .moving backup) :
    Does valid s (.move i ok) (moveStep s i u backup ok)
  | restore {i u backup} (ok : Bool) (hi : s.uploads[i]? = some u)
    (hpc : u.pc = .restoring backup) : Does valid s (.restore i ok) (restoreStep s i u backup ok)
  | remove {i u backup} (left : Option Tree) (hi : s.uploads[i]? = some u)
    (hpc : u.pc = .removing backup) : Does valid s (.remove i left) (removeStep s i u backup left)

theorem does_of_step (hs : step valid s a = some s') : Does valid s a s' := by
  cases a with
  | upload name overwrite base tree =>
    obtain rfl := Option.some.inj hs
    exact .upload ..
  | validate i ok =>
    simp only [step] at hs
    split at hs
    · next u hi =>
      by_cases hpc : u.pc = .staged
      · rw [if_pos hpc] at hs
        obtain rfl := Option.some.inj hs
        exact .validate ok hi hpc
      · rw [if_neg hpc] at hs
        cases hs
    · cases hs
  | test i =>
    simp only [step] at hs
    split at hs
    · next u hi =>
      split_ifs at hs with hpc
      obtain rfl := Option.some.inj hs
      exact .test hi hpc
    · cases hs
  | rename i second ok =>
    simp only [step] at hs
    split at hs
    · next u hi =>
      split_ifs at hs with hpc
      obtain rfl := Option.some.inj hs
      exact .rename second ok hi hpc
    · cases hs
  | move i ok =>
    simp only [step] at hs
    split at hs
    · next u hi =>
      split at hs
      · next backup hpc =>
        obtain rfl := Option.some.inj hs
        exact .move ok hi hpc
      · cases hs
    · cases hs
  | restore i ok =>
    simp only [step] at hs
    split at hs
    · next u hi =>
      split at hs
      · next backup hpc =>
        obtain rfl := Option.some.inj hs
        exact .restore ok hi hpc
      · cases hs
    · cases hs
  | remove i left =>
    simp only [step] at hs
    split at hs
    · next u hi =>
      split at hs
      · next backup hpc =>
        obtain rfl := Option.some.inj hs
        exact .remove left hi hpc
      · cases hs
    · cases hs

/-- No `_install` begins while another of its name is between its test and its return, and the
rename that puts a backup back does not fail. -/
def Apart (s : Sys) : Action → Prop
  | .test i => ∀ u ∈ s.uploads[i]?, ∀ v ∈ s.uploads, v.pc.installing = true → v.name ≠ u.name
  | .restore _ ok => ok = true
  | _ => True

instance (s : Sys) : ∀ a, Decidable (Apart s a)
  | .test _ => inferInstanceAs (Decidable (∀ u ∈ s.uploads[_]?, ∀ v ∈ s.uploads, _))
  | .restore _ ok => inferInstanceAs (Decidable (ok = true))
  | .upload .. | .validate .. | .rename .. | .move .. | .remove .. => .isTrue trivial

theorem sound_upload (name : String) (overwrite : Bool) (base : String) (tree : Tree)
    (h : Sound valid s) : Sound valid
      { s with uploads := s.uploads ++ [⟨name, overwrite, base, tree, .staged, none⟩] } := by
  have hwhole : ∀ {n t}, Whole valid s n t → Whole valid
      { s with uploads := s.uploads ++ [⟨name, overwrite, base, tree, .staged, none⟩] } n t := by
    rintro n t ⟨v, hv, hrest⟩
    exact ⟨v, List.mem_append_left _ hv, hrest⟩
  have hmem : ∀ {v : Upload}, v ∈ s.uploads ++ [⟨name, overwrite, base, tree, .staged, none⟩] →
      v.pc ≠ .staged → v ∈ s.uploads := by
    intro v hv hpc
    rcases List.mem_append.mp hv with hv | hv
    · exact hv
    · obtain rfl := List.mem_singleton.mp hv
      exact absurd rfl hpc
  refine ⟨⟨fun n t ht => hwhole (h.shows.whole n t ht), ?_, ?_⟩, ?_, ?_, ?_⟩
  · intro v hv hpc
    rcases h.shows.kept v (hmem hv (by simp [hpc])) hpc with hsome | ⟨w, hw, hrest⟩
    · exact .inl hsome
    · exact .inr ⟨w, List.mem_append_left _ hw, hrest⟩
  · intro n
    have hold := h.shows.once n
    simpa [List.countP_append] using hold
  · intro v hv hstaged
    exact h.validated v (hmem hv hstaged) hstaged
  · exact h.exclusive.append_idle rfl
  · intro v hv
    rcases List.mem_append.mp hv with hv | hv
    · exact stands_of_same (s := s) (fun _ => ⟨rfl, fun _ => rfl⟩) (fun _ => hwhole) (h.stands v hv)
    · obtain rfl := List.mem_singleton.mp hv
      rfl

theorem sound_start (valid : Tree → String → Bool) : Sound valid start := by
  refine ⟨⟨?_, ?_, ?_⟩, ?_, ?_, ?_⟩
  · intro name t ht
    cases ht
  · intro v hv
    cases hv
  · intro name
    exact Nat.zero_le _
  · intro v hv
    cases hv
  · exact exclusive_nil _ _
  · intro v hv
    cases hv

theorem sound_step (h : Sound valid s) (hc : Apart s a) (hs : step valid s a = some s') :
    Sound valid s' := by
  cases does_of_step hs with
  | upload => exact sound_upload _ _ _ _ h
  | validate ok hi hpc => exact sound_validate hi hpc ok h
  | test hi hpc =>
    refine sound_test hi hpc ?_ h
    intro j v _ hv hvi
    exact hc _ hi v (List.mem_of_getElem? hv) hvi
  | rename second ok hi hpc => exact sound_rename hi hpc second ok h
  | move ok hi hpc => exact sound_move hi hpc ok h
  | restore ok hi hpc =>
    obtain rfl : ok = true := hc
    exact sound_restore hi hpc h
  | remove left hi hpc => exact sound_remove hi hpc left h

/-- A step of the upload leaves the other names alone, and its own as `_install` found it where
the upload fails by it. -/
structure Clean (entries entries' : Dict Entry Tree) (u u' : Upload) : Prop where
  others : ∀ n, n ≠ u.name → entries'.get? (.model n) = entries.get? (.model n)
  failed : u'.pc = .failed →
    entries'.get? (.model u.name) = u'.found.getD (entries.get? (.model u.name))

section Clean
variable {i : ℕ} {u : Upload}

theorem clean_of_found {u' : Upload} {found : Option Tree} (hfound : u'.found = some found)
    (hmodel : s.entries.get? (.model u.name) = found) : Clean s.entries s.entries u u' := by
  refine ⟨fun _ _ => rfl, fun _ => ?_⟩
  rw [hfound]
  exact hmodel

theorem clean_rename (hpc : u.pc = .replacing) (second : ℕ) (ok : Bool) (h : Stands valid s u) :
    ∃ u' entries, renameStep s i u second ok = put s i u' entries ∧
      Clean s.entries entries u u' := by
  simp only [Stands, hpc] at h
  obtain ⟨-, t, ht, hfound⟩ := h
  unfold renameStep
  split
  · next entries hren =>
    split_ifs at hren
    obtain ⟨t', -, rfl⟩ := renameDir_eq_some hren
    exact ⟨_, _, rfl, fun n hn => (outside_rename _ _ _ _ n hn).1, by simp⟩
  · exact ⟨_, _, rfl, clean_of_found hfound ht⟩

theorem clean_move {backup : Option ℕ} (hpc : u.pc = .moving backup) (ok : Bool)
    (h : Stands valid s u) :
    ∃ u' entries, moveStep s i u backup ok = put s i u' entries ∧ Clean s.entries entries u u' := by
  have hmoved : ∀ entries, (if ok then moveDir s.entries u.tree u.base (.model u.name) else none) =
      some entries → ∀ n, n ≠ u.name → entries.get? (.model n) = s.entries.get? (.model n) := by
    intro entries hmove n hn
    split_ifs at hmove
    unfold moveDir at hmove
    split at hmove
    · obtain rfl := Option.some.inj hmove
      exact (outside_set _ _ _ n hn).1
    · split_ifs at hmove
      obtain rfl := Option.some.inj hmove
      exact (outside_set _ _ _ n hn).1
  unfold moveStep
  split
  · next entries b hmove => exact ⟨_, _, rfl, hmoved entries hmove, by simp⟩
  · next entries hmove => exact ⟨_, _, rfl, hmoved entries hmove, by simp⟩
  · exact ⟨_, _, rfl, fun _ _ => rfl, by simp⟩
  · simp only [Stands, hpc] at h
    exact ⟨_, _, rfl, clean_of_found h.2 h.1⟩

theorem clean_restore {b : ℕ} (hpc : u.pc = .restoring b) (h : Stands valid s u) :
    ∃ u' entries, restoreStep s i u b true = put s i u' entries ∧
      Clean s.entries entries u u' := by
  simp only [Stands, hpc] at h
  obtain ⟨-, hfree, t, ht, hfound, -⟩ := h
  have hren : renameDir s.entries (.backup u.name b) (.model u.name) =
      some ((s.entries.pop (.backup u.name b)).set (.model u.name) t) := by
    simp [renameDir, ht, hfree]
  unfold restoreStep
  rw [if_pos rfl, hren]
  refine ⟨_, _, rfl, fun n hn => (outside_restore _ _ _ _ n hn).1, fun _ => ?_⟩
  rw [Dict.get?_set_self, hfound]
  rfl

theorem clean_remove (b : ℕ) (left : Option Tree) :
    ∃ u' entries, removeStep s i u b left = put s i u' entries ∧ Clean s.entries entries u u' := by
  refine ⟨_, _, rfl, fun n _ => ?_, by simp⟩
  cases left with
  | none => exact Dict.get?_pop_ne _ (by simp)
  | some t => exact Dict.get?_set_ne _ _ (by simp)

end Clean

theorem clean_of_step (h : Sound valid s) (hc : Apart s a) (hs : step valid s a = some s') {j : ℕ}
    {v v' : Upload} (hv : s.uploads[j]? = some v) (hv' : s'.uploads[j]? = some v')
    (hmoved : v' ≠ v) : Clean s.entries s'.entries v v' := by
  -- The upload that moved is the one whose step it is.
  have hput : ∀ {i u}, s.uploads[i]? = some u →
      (∃ u' entries, s' = put s i u' entries ∧ Clean s.entries entries u u') →
      Clean s.entries s'.entries v v' := by
    rintro i u hi ⟨u', entries, rfl, hclean⟩
    rcases getElem?_set_cases hi hv' with ⟨rfl, rfl⟩ | ⟨-, hj⟩
    · obtain rfl : u = v := Option.some.inj (hi.symm.trans hv)
      exact hclean
    · exact absurd (Option.some.inj (hj.symm.trans hv)) hmoved
  have hstands : ∀ {i u}, s.uploads[i]? = some u → Stands valid s u :=
    fun hi => h.stands _ (List.mem_of_getElem? hi)
  cases does_of_step hs with
  | upload =>
    obtain ⟨hj, -⟩ := List.getElem?_eq_some_iff.mp hv
    rw [List.getElem?_append_left hj] at hv'
    exact absurd (Option.some.inj (hv'.symm.trans hv)) hmoved
  | validate ok hi hpc =>
    have hfound := hstands hi
    simp only [Stands, hpc] at hfound
    refine hput hi ⟨_, _, rfl, fun _ _ => rfl, fun _ => ?_⟩
    rw [hfound]
    rfl
  | test hi hpc => exact hput hi ⟨_, _, rfl, clean_of_found rfl rfl⟩
  | rename second ok hi hpc => exact hput hi (clean_rename hpc second ok (hstands hi))
  | move ok hi hpc => exact hput hi (clean_move hpc ok (hstands hi))
  | restore ok hi hpc =>
    obtain rfl : ok = true := hc
    exact hput hi (clean_restore hpc (hstands hi))
  | remove left hi hpc => exact hput hi (clean_remove _ left)

/-- Every model shown is the staged tree of one validated upload, a name once installed is not
free for longer than a replacement takes, no two uploads without overwrite are installed under one
name, and a failed upload leaves every model as it was. -/
theorem shows_whole_of_run {acts : List Action} (hapart : Along (step valid) Apart start acts)
    (hrun : run (step valid) start acts = some s) :
    Shows valid s ∧
    ∀ a s', Apart s a → step valid s a = some s' →
      ∀ (i : ℕ) (u u' : Upload), s.uploads[i]? = some u → s'.uploads[i]? = some u' → u' ≠ u →
        Clean s.entries s'.entries u u' := by
  have hsound : Sound valid s :=
    run_invariant (sound_start valid) (fun _ _ _ h hc hs => sound_step h hc hs) hapart hrun
  refine ⟨hsound.shows, ?_⟩
  intro a s' hc hs i u u' hu hu' hmoved
  exact clean_of_step hsound hc hs hu hu' hmoved

def hasConfig (t : Tree) (_ : String) : Bool := t.has "config.pbtxt"

def firstTree : Tree := [(["config.pbtxt"], some "backend: onnxruntime")]

def secondTree : Tree := [(["config.pbtxt"], some "backend: pytorch"), (["1"], none)]

/-- One upload installs, and the move of one that replaces it fails. -/
def replaced : List Action :=
  [.upload "tagger" false "extract" firstTree, .validate 0 true, .test 0, .move 0 true,
    .upload "tagger" true "model" secondTree, .validate 1 true, .test 1, .rename 1 1700000000 true,
    .move 1 false]

theorem shows_whole_of_run_replaced : ∃ s s', run (step hasConfig) start replaced = some s ∧
    step hasConfig s (.restore 1 true) = some s' ∧ Shows hasConfig s ∧
    s'.entries.get? (.model "tagger") = some firstTree := by
  have hrun : ((run (step hasConfig) start replaced).bind fun s =>
      (step hasConfig s (.restore 1 true)).bind fun s' =>
        if s.uploads[1]?.map (·.pc) = some (.restoring 1700000000) ∧
            s'.uploads[1]?.map (·.pc) = some .failed ∧
            s.uploads[1]?.map (·.name) = some "tagger" ∧
            s'.uploads[1]?.map (·.found) = some (some (some firstTree)) then some () else none) =
      some () := by
    decide +kernel
  simp only [Option.bind_eq_some_iff, Option.ite_none_right_eq_some, Option.map_eq_some_iff] at hrun
  obtain ⟨s, hrun, s', hstep, ⟨hpc, hpc', hname, hfound⟩, -⟩ := hrun
  obtain ⟨u, hu, hupc⟩ := hpc
  obtain ⟨u', hu', hpc⟩ := hpc'
  obtain ⟨_, hw, hname⟩ := hname
  obtain ⟨_, hw', hfound⟩ := hfound
  obtain rfl := Option.some.inj (hu.symm.trans hw)
  obtain rfl := Option.some.inj (hu'.symm.trans hw')
  obtain ⟨hshows, hclean⟩ := shows_whole_of_run (by decide +kernel) hrun
  have hmoved : u' ≠ u := by
    rintro rfl
    rw [hpc] at hupc
    cases hupc
  have hfail := (hclean (.restore 1 true) s' rfl hstep 1 u u' hu hu' hmoved).failed hpc
  rw [hname, hfound] at hfail
  exact ⟨s, s', hrun, hstep, hshows, hfail⟩

/-- Two uploads of a new name, neither with overwrite, both find it free: the second is moved into
the directory of the first, and both succeed. -/
theorem not_shows_whole_nested : ¬∀ (valid : Tree → String → Bool) (acts : List Action) (s : Sys),
    run (step valid) start acts = some s → Shows valid s ∧
    ∀ a s', step valid s a = some s' →
      ∀ (i : ℕ) (u u' : Upload), s.uploads[i]? = some u → s'.uploads[i]? = some u' → u' ≠ u →
        Clean s.entries s'.entries u u' := by
  intro h
  have hrun : ((run (step hasConfig) start
      [.upload "tagger" false "extract" firstTree, .upload "tagger" false "model" secondTree,
        .validate 0 true, .validate 1 true, .test 0, .test 1, .move 0 true, .move 1 true]).bind
      fun s => if s.uploads.countP (fun u => u.name = "tagger" && !u.overwrite &&
          u.pc = .installed) = 2 ∧
        s.entries.get? (.model "tagger") = some (firstTree ++ secondTree.within "model") ∧
        (∀ u ∈ s.uploads, u.tree ≠ firstTree ++ secondTree.within "model") then some () else none) =
      some () := by
    decide +kernel
  simp only [Option.bind_eq_some_iff, Option.ite_none_right_eq_some] at hrun
  obtain ⟨s, hrun, ⟨-, hmodel, hnone⟩, -⟩ := hrun
  obtain ⟨u, hu, -, htree, -⟩ := (h hasConfig _ s hrun).1.whole "tagger" _ hmodel
  exact hnone u hu htree

end Steps

end PurdueAF.ModelRepository

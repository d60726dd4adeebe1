import PurdueAF.DaskTools

/-!
# What a creation and a scaling may do

The user is asked only what the caller left open, and a question that is not answered ends the
call before anything is made. A cluster is made at most once and as it was agreed on, its workers
are asked for at most once and only of a scheduler that runs, and whatever fails from then on, the
user is told the cluster's name.
-/
namespace PurdueAF.DaskTools
open Asking AgentTools Py Binary64

abbrev Log := List (Exchange Request Answer)

def Request.creates : Request → Bool
  | .gateway (.create _) => true
  | _ => false

def Request.scales : Request → Bool
  | .gateway (.scale _ _) => true
  | _ => false

def creations (h : Log) : ℕ := h.countP (·.1.creates)

def scalings (h : Log) : ℕ := h.countP (·.1.scales)

/-- The user answered the question with this. -/
def Says (h : Log) (form : Form) (data : form.Data) : Prop :=
  ⟨.elicit form, .value (some data)⟩ ∈ h

/-- Only questions were asked. -/
def Quiet (h : Log) : Prop := ∀ e ∈ h, ∃ form, e.1 = .elicit form

/-- Only questions were asked, and each was answered. -/
def Settled (h : Log) : Prop := ∀ e ∈ h, ∃ form data, e = ⟨.elicit form, .value (some data)⟩

inductive Environment
  | pixi (project env : String)
  | conda (path : String)

/-- An environment as a creation carries it. -/
def Environment.placed : Environment → String × String × String
  | .pixi project env =>
    let name := strip (if env ≠ "" then env else "default")
    (strip project, if name ≠ "" then name else "default", "")
  | .conda path => ("", "default", strip path)

def Options.environment (options : Options) : String × String × String :=
  (options.pixiProject, options.pixiEnv, options.condaEnv)

section Agreed
variable (w : Words) (globalPixiProject username : String) (a : CreateArgs) (h : Log)

/-- The caller gave no path. -/
def PathsOpen : Prop := a.pixiProject.getD "" = "" ∧ a.condaEnv.getD "" = ""

def SourceIs (source : String) : Prop :=
  a.envSource = some source ∨ a.envSource = none ∧ Says h .env source

def SizeOpen : Prop := a.workerCores = none ∧ a.workerMemory = none

/-- What the caller left to the user, as far as it was answered. -/
def LeftOpen : Form → Prop
  | .env => PathsOpen a ∧ a.envSource = none
  | .pixi => PathsOpen a ∧ SourceIs a h "pixi"
  | .conda => PathsOpen a ∧ SourceIs a h "conda"
  | .size => SizeOpen a
  | .customSize => SizeOpen a ∧ Says h .size "custom"
  | .count => a.nWorkers = none
  | .customCount => a.nWorkers = none ∧ Says h .count "custom"

/-- Where the environment comes from. -/
inductive EnvFrom : Environment → Prop
  | givenPixi (hpixi : strip (a.pixiProject.getD "") ≠ "") :
      EnvFrom (.pixi (a.pixiProject.getD "") a.pixiEnv)
  | givenConda (hpixi : strip (a.pixiProject.getD "") = "")
      (hconda : strip (a.condaEnv.getD "") ≠ "") : EnvFrom (.conda (a.condaEnv.getD ""))
  | shared (hopen : PathsOpen a) (hs : SourceIs a h "global") :
      EnvFrom (.pixi globalPixiProject "default")
  | ownPixi {choice : PixiChoice} (hopen : PathsOpen a) (hs : SourceIs a h "pixi")
      (hc : Says h .pixi choice) : EnvFrom (.pixi choice.pixiProject choice.pixiEnv)
  | ownConda {path : String} (hopen : PathsOpen a) (hs : SourceIs a h "conda")
      (hc : Says h .conda path) : EnvFrom (.conda path)

/-- Where the size of a worker comes from. -/
inductive SizeFrom : Value → Value → Prop
  | given (hgiven : ¬SizeOpen a) : SizeFrom (a.workerCores.getD defaultWorkerCores)
      (a.workerMemory.getD defaultWorkerMemory)
  | default {size : String} (hopen : SizeOpen a) (hs : Says h .size size) (hne : size ≠ "custom") :
      SizeFrom defaultWorkerCores defaultWorkerMemory
  | custom {size : CustomSize} (hopen : SizeOpen a) (hs : Says h .size "custom")
      (hc : Says h .customSize size) : SizeFrom size.workerCores size.workerMemory

/-- Where the number of workers comes from. -/
inductive CountFrom : ℤ → Prop
  | given {workers : ℤ} (hgiven : a.nWorkers = some workers) : CountFrom workers
  | chosen {count : String} {workers : ℤ} (hopen : a.nWorkers = none) (hs : Says h .count count)
      (hint : w.int count = some workers) : CountFrom workers
  | custom {workers : ℕ} (hopen : a.nWorkers = none) (hs : Says h .count "custom")
      (hc : Says h .customCount workers) : CountFrom workers

/-- A creation the caller and the user agreed on. -/
structure Agreed (options : Options) : Prop where
  env : ∃ e, EnvFrom globalPixiProject a h e ∧ options.environment = e.placed
  one : (options.pixiProject ≠ "" ∧ options.condaEnv = "") ∨
    (options.pixiProject = "" ∧ options.condaEnv ≠ "")
  size : SizeFrom a h options.workerCores options.workerMemory
  positive : le options.workerCores (.finite 0) = false ∧
    le options.workerMemory (.finite 0) = false
  vars : options.env = baseWorkerEnv w username a.env

end Agreed

section Agreements
variable {w : Words} {globalPixiProject username : String} {a : CreateArgs} {h h' : Log}

theorem SourceIs.mono {source : String} (hs : SourceIs a h source) (hh : ∀ e ∈ h, e ∈ h') :
    SourceIs a h' source := hs.imp_right fun hs => ⟨hs.1, hh _ hs.2⟩

theorem EnvFrom.mono {e : Environment} (he : EnvFrom globalPixiProject a h e)
    (hh : ∀ e ∈ h, e ∈ h') : EnvFrom globalPixiProject a h' e := by
  cases he with
  | givenPixi hpixi => exact .givenPixi hpixi
  | givenConda hpixi hconda => exact .givenConda hpixi hconda
  | shared hopen hs => exact .shared hopen (hs.mono hh)
  | ownPixi hopen hs hc => exact .ownPixi hopen (hs.mono hh) (hh _ hc)
  | ownConda hopen hs hc => exact .ownConda hopen (hs.mono hh) (hh _ hc)

theorem SizeFrom.mono {cores memory : Value} (hs : SizeFrom a h cores memory)
    (hh : ∀ e ∈ h, e ∈ h') : SizeFrom a h' cores memory := by
  cases hs with
  | given hgiven => exact .given hgiven
  | default hopen hs hne => exact .default hopen (hh _ hs) hne
  | custom hopen hs hc => exact .custom hopen (hh _ hs) (hh _ hc)

theorem CountFrom.mono {workers : ℤ} (hc : CountFrom w a h workers) (hh : ∀ e ∈ h, e ∈ h') :
    CountFrom w a h' workers := by
  cases hc with
  | given hgiven => exact .given hgiven
  | chosen hopen hs hint => exact .chosen hopen (hh _ hs) hint
  | custom hopen hs hc => exact .custom hopen (hh _ hs) (hh _ hc)

end Agreements

/-- The gateway made a cluster of this name. -/
def Created (w : Words) (h : Log) (cluster : String) : Prop :=
  ∃ options resp, ⟨.gateway (.create options), .value (.ok resp)⟩ ∈ h ∧
    resp.status ∈ (Call.create options).ok ∧ nameIn w resp = some cluster

/-- What the gateway says of the cluster's status in this exchange. -/
def statusFrom (w : Words) (cluster : String) : Exchange Request Answer → Option String
  | ⟨.gateway (.record c action), .value (.ok resp)⟩ =>
    if c = cluster ∧ resp.status ∈ (Call.record c action).ok then
      match resp.json with
      | some (.dict record) => some (statusIn w record)
      | _ => none
    else none
  | _ => none

/-- The last thing the gateway said of the cluster's scheduler is that it runs. -/
def Running (w : Words) (h : Log) (cluster : String) : Prop :=
  h.reverse.findSome? (statusFrom w cluster) = some "RUNNING"

/-- What a creation may ask. -/
def Permitted (w : Words) (globalPixiProject username : String) (a : CreateArgs) (h : Log) :
    Request → Prop
  | .elicit form => Settled h ∧ LeftOpen a h form
  | .gateway (.create options) => Settled h ∧ Agreed w globalPixiProject username a h options
  | .gateway (.record cluster _) => Created w h cluster ∧ scalings h = 0
  | .gateway (.scale cluster workers) => Created w h cluster ∧ scalings h = 0 ∧
      Running w h cluster ∧ CountFrom w a h workers ∧ workers ≠ 0
  | .now | .sleep _ => ∃ cluster, Created w h cluster

/-- How a creation may end. -/
def Concluded (w : Words) (globalPixiProject : String) (h : Log) : Except Raised String → Prop
  | .ok text => ∃ cluster, Created w h cluster ∧
      s!"Cluster '{cluster}' created.".toList <+: text.toList
  | .error (.failure _) => ∀ cluster, ¬Created w h cluster
  | .error (.needsChoices help) => Quiet h ∧ help = createChoicesHelp globalPixiProject
  | .error .unfinished => True

theorem Settled.quiet {h : Log} (hs : Settled h) : Quiet h := by
  intro e he
  obtain ⟨form, data, rfl⟩ := hs e he
  exact ⟨form, rfl⟩

theorem Settled.append {h : Log} (hs : Settled h) (form : Form) (data : form.Data) :
    Settled (h ++ [⟨.elicit form, .value (some data)⟩]) := by
  intro e he
  rcases List.mem_append.mp he with he | he
  · exact hs e he
  · exact ⟨form, data, List.mem_singleton.mp he⟩

theorem Quiet.append {h : Log} (hq : Quiet h) {e : Exchange Request Answer} {form : Form}
    (he : e.1 = .elicit form) : Quiet (h ++ [e]) := by
  intro e' he'
  rcases List.mem_append.mp he' with he' | he'
  · exact hq e' he'
  · rw [List.mem_singleton.mp he']
    exact ⟨form, he⟩

theorem Quiet.not_created {w : Words} {h : Log} (hq : Quiet h) (cluster : String) :
    ¬Created w h cluster := by
  rintro ⟨options, resp, hmem, -⟩
  obtain ⟨form, hform⟩ := hq _ hmem
  cases hform

theorem Quiet.creations {h : Log} (hq : Quiet h) : creations h = 0 := by
  refine List.countP_eq_zero.mpr fun e he => ?_
  obtain ⟨form, hform⟩ := hq e he
  simp [hform, Request.creates]

theorem Quiet.scalings {h : Log} (hq : Quiet h) : scalings h = 0 := by
  refine List.countP_eq_zero.mpr fun e he => ?_
  obtain ⟨form, hform⟩ := hq e he
  simp [hform, Request.scales]

theorem scalings_append {h : Log} {e : Exchange Request Answer} (he : e.1.scales = false) :
    scalings (h ++ [e]) = scalings h := by
  unfold scalings
  rw [List.countP_append, List.countP_singleton, if_neg (by simp [he]), Nat.add_zero]

section Questions
variable {w : Words} {globalPixiProject username : String} {a : CreateArgs} {h : Log}

/-- What is raised while only questions were asked. -/
def Unmade (globalPixiProject : String) (h : Log) : Raised → Prop
  | .failure _ => Quiet h
  | .needsChoices help => Quiet h ∧ help = createChoicesHelp globalPixiProject
  | .unfinished => False

/-- A log later on, with all its questions answered. -/
structure Later (h h' : Log) : Prop where
  settled : Settled h'
  kept : ∀ e ∈ h, e ∈ h'

theorem Later.trans {h₁ h₂ h₃ : Log} (h12 : Later h₁ h₂) (h23 : Later h₂ h₃) : Later h₁ h₃ :=
  ⟨h23.settled, fun e he => h23.kept e (h12.kept e he)⟩

theorem meets_choose (form : Form) (hs : Settled h) (hopen : LeftOpen a h form) :
    Meets (Permitted w globalPixiProject username a) (Unmade globalPixiProject)
      (fun h' data => Later h h' ∧ Says h' form data) h (choose globalPixiProject form) := by
  have hraised {got : Got (Answer (.elicit form))} :
      Unmade globalPixiProject (h ++ [⟨.elicit form, got⟩])
        (.needsChoices (createChoicesHelp globalPixiProject)) :=
    ⟨hs.quiet.append rfl, rfl⟩
  unfold choose
  refine Meets.bind (Q := fun h' (data : Option (Option form.Data)) =>
    data.join.elim (Unmade globalPixiProject h' (.needsChoices (createChoicesHelp globalPixiProject)))
      fun data => h' = h ++ [⟨.elicit form, .value (some data)⟩])
    (Meets.lift (Holds.attempt ⟨hs, hopen⟩ (fun data => ?_) ?_)) fun h' data hdata => ?_
  · cases data with
    | none => exact hraised
    | some data => rfl
  · exact hraised
  · cases hj : data.join with
    | none =>
      rw [hj] at hdata
      exact Meets.throw hdata
    | some data =>
      rw [hj] at hdata
      obtain rfl := hdata
      exact Meets.pure ⟨⟨hs.append form data, fun e he => List.mem_append_left _ he⟩,
        List.mem_append_right _ (List.mem_singleton.mpr rfl)⟩

theorem meets_refusal {A : Log → Request → Prop} {E : Log → Raised → Prop} {Q : Log → Unit → Prop}
    {due : Bool} {text : String} (hE : due = true → E h (userError text))
    (hQ : due = false → Q h ()) : Meets A E Q h (refuse due text) := by
  unfold refuse
  cases due with
  | true => exact Meets.throw (hE rfl)
  | false => exact Meets.pure (hQ rfl)

theorem meets_refuse {Q : Log → Unit → Prop} {due : Bool} {text : String} (hs : Settled h)
    (hQ : due = false → Q h ()) :
    Meets (Permitted w globalPixiProject username a) (Unmade globalPixiProject) Q h
      (refuse due text) :=
  meets_refusal (fun _ => hs.quiet) hQ

/-- `env_source` once it is known. -/
def Sourced (a : CreateArgs) (h : Log) (source : String) : Prop :=
  a.pixiProject.getD "" ≠ "" ∧ source = "pixi" ∨
  a.condaEnv.getD "" ≠ "" ∧ source = "conda" ∨
  PathsOpen a ∧ SourceIs a h source

theorem meets_envSource (hs : Settled h) :
    Meets (Permitted w globalPixiProject username a) (Unmade globalPixiProject)
      (fun h' source => Later h h' ∧ Sourced a h' source) h (envSource globalPixiProject a) := by
  have hself : Later h h := ⟨hs, fun e he => he⟩
  unfold envSource
  by_cases hpixi : a.pixiProject.getD "" = ""
  · rw [if_neg (not_not.mpr hpixi)]
    by_cases hconda : a.condaEnv.getD "" = ""
    · rw [if_neg (not_not.mpr hconda)]
      cases hsource : a.envSource with
      | some source => exact Meets.pure ⟨hself, .inr (.inr ⟨⟨hpixi, hconda⟩, .inl hsource⟩)⟩
      | none =>
        refine Meets.mono (meets_choose .env hs ⟨⟨hpixi, hconda⟩, hsource⟩)
          (fun _ _ he => he) ?_
        rintro h' source ⟨hlater, hsays⟩
        exact ⟨hlater, .inr (.inr ⟨⟨hpixi, hconda⟩, .inr ⟨hsource, hsays⟩⟩)⟩
    · rw [if_pos hconda]
      exact Meets.pure ⟨hself, .inr (.inl ⟨hconda, rfl⟩)⟩
  · rw [if_pos hpixi]
    exact Meets.pure ⟨hself, .inl ⟨hpixi, rfl⟩⟩

/-- The environment as it goes into the body of the creation. -/
inductive Resolved (globalPixiProject : String) (a : CreateArgs) (h : Log) :
    Option String × String × Option String → Prop
  | given (hgiven : ¬PathsOpen a) :
      Resolved globalPixiProject a h (a.pixiProject, a.pixiEnv, a.condaEnv)
  | pixi {project env : String} {conda : Option String}
      (he : EnvFrom globalPixiProject a h (.pixi project env)) (hconda : conda.getD "" = "") :
      Resolved globalPixiProject a h (some project, env, conda)
  | conda {pixi : Option String} {env path : String}
      (he : EnvFrom globalPixiProject a h (.conda path)) (hpixi : pixi.getD "" = "") :
      Resolved globalPixiProject a h (pixi, env, some path)

theorem meets_resolveEnv (hs : Settled h) :
    Meets (Permitted w globalPixiProject username a) (Unmade globalPixiProject)
      (fun h' r => Later h h' ∧ Resolved globalPixiProject a h' r) h
      (resolveEnv globalPixiProject a) := by
  unfold resolveEnv
  refine Meets.bind (meets_envSource hs) fun h₁ source ⟨hlater, hsource⟩ => ?_
  have hopen (hpixi : a.pixiProject.getD "" = "" ∨ source ≠ "pixi")
      (hconda : a.condaEnv.getD "" = "" ∨ source ≠ "conda") :
      PathsOpen a ∧ SourceIs a h₁ source := by
    rcases hsource with ⟨hne, heq⟩ | ⟨hne, heq⟩ | hopen
    · exact absurd heq (hpixi.resolve_left hne)
    · exact absurd heq (hconda.resolve_left hne)
    · exact hopen
  by_cases hglobal : source = "global"
  · rw [if_pos hglobal]
    obtain ⟨hpaths, hs⟩ := hopen (.inr (by simp [hglobal])) (.inr (by simp [hglobal]))
    exact Meets.pure ⟨hlater, .pixi (.shared hpaths (hglobal ▸ hs)) hpaths.2⟩
  rw [if_neg hglobal]
  by_cases hpixi : source = "pixi"
  · rw [if_pos hpixi]
    by_cases hgiven : a.pixiProject.getD "" = ""
    · rw [if_neg (not_not.mpr hgiven)]
      obtain ⟨hpaths, hs⟩ := hopen (.inl hgiven) (.inr (by simp [hpixi]))
      rw [hpixi] at hs
      refine Meets.bind (meets_choose .pixi hlater.settled ⟨hpaths, hs⟩) fun h₂ choice hchoice => ?_
      obtain ⟨hlater', hsays⟩ := hchoice
      exact Meets.pure ⟨hlater.trans hlater',
        .pixi (.ownPixi hpaths (hs.mono hlater'.kept) hsays) hpaths.2⟩
    · rw [if_pos hgiven]
      exact Meets.pure ⟨hlater, .given fun hpaths => hgiven hpaths.1⟩
  rw [if_neg hpixi]
  by_cases hconda : source = "conda"
  · rw [if_pos hconda]
    by_cases hgiven : a.condaEnv.getD "" = ""
    · rw [if_neg (not_not.mpr hgiven)]
      obtain ⟨hpaths, hs⟩ := hopen (.inr hpixi) (.inl hgiven)
      rw [hconda] at hs
      refine Meets.bind (meets_choose .conda hlater.settled ⟨hpaths, hs⟩) fun h₂ path hpath => ?_
      obtain ⟨hlater', hsays⟩ := hpath
      exact Meets.pure ⟨hlater.trans hlater',
        .conda (.ownConda hpaths (hs.mono hlater'.kept) hsays) hpaths.1⟩
    · rw [if_pos hgiven]
      exact Meets.pure ⟨hlater, .given fun hpaths => hgiven hpaths.2⟩
  · rw [if_neg hconda]
    exact Meets.throw hlater.settled.quiet

theorem not_le_of_positive {x : Value} (h : lt (.finite 0) x = true) :
    le x (.finite 0) = false := by
  by_contra hle
  rw [value_not_lt (Bool.eq_true_of_not_eq_false hle)] at h
  cases h

theorem meets_resolveSize (hs : Settled h)
    (hcores : (a.workerCores.any fun cores => le cores (.finite 0)) = false)
    (hmemory : (a.workerMemory.any fun memory => le memory (.finite 0)) = false) :
    Meets (Permitted w globalPixiProject username a) (Unmade globalPixiProject)
      (fun h' r => Later h h' ∧ SizeFrom a h' r.1 r.2 ∧ le r.1 (.finite 0) = false ∧
        le r.2 (.finite 0) = false) h
      (resolveSize globalPixiProject a.workerCores a.workerMemory) := by
  have hself : Later h h := ⟨hs, fun e he => he⟩
  have hdefaults : le defaultWorkerCores (.finite 0) = false ∧
      le defaultWorkerMemory (.finite 0) = false := by decide +kernel
  by_cases hopen : SizeOpen a
  · rw [hopen.1, hopen.2]
    unfold resolveSize
    refine Meets.bind (meets_choose .size hs hopen) fun h₁ size ⟨hlater, hsays⟩ => ?_
    by_cases hcustom : size = "custom"
    · rw [if_pos hcustom]
      rw [hcustom] at hsays
      refine Meets.bind (meets_choose .customSize hlater.settled ⟨hopen, hsays⟩)
        fun h₂ size hsize => ?_
      obtain ⟨hlater', hsays'⟩ := hsize
      exact Meets.pure ⟨hlater.trans hlater', .custom hopen (hlater'.kept _ hsays) hsays',
        not_le_of_positive size.coresPositive, not_le_of_positive size.memoryPositive⟩
    · rw [if_neg hcustom]
      exact Meets.pure ⟨hlater, .default hopen hsays hcustom, hdefaults⟩
  · have hgiven : resolveSize globalPixiProject a.workerCores a.workerMemory =
        pure (a.workerCores.getD defaultWorkerCores, a.workerMemory.getD defaultWorkerMemory) := by
      unfold resolveSize
      split
      · rename_i hc hm
        exact absurd ⟨hc, hm⟩ hopen
      · rfl
    have hor (given : Option Value) (default : Value)
        (hany : (given.any fun x => le x (.finite 0)) = false)
        (hdefault : le default (.finite 0) = false) :
        le (given.getD default) (.finite 0) = false := by
      cases given with
      | none => exact hdefault
      | some x => exact hany
    rw [hgiven]
    exact Meets.pure ⟨hself, .given hopen, hor _ _ hcores hdefaults.1, hor _ _ hmemory hdefaults.2⟩

theorem meets_resolveCount (hs : Settled h) :
    Meets (Permitted w globalPixiProject username a) (Unmade globalPixiProject)
      (fun h' workers => Later h h' ∧ CountFrom w a h' workers) h
      (resolveCount w globalPixiProject a.nWorkers) := by
  unfold resolveCount
  cases hcount : a.nWorkers with
  | some workers => exact Meets.pure ⟨⟨hs, fun e he => he⟩, .given hcount⟩
  | none =>
    refine Meets.bind (meets_choose .count hs hcount) fun h₁ count ⟨hlater, hsays⟩ => ?_
    by_cases hcustom : count = "custom"
    · rw [if_neg (not_not.mpr hcustom)]
      rw [hcustom] at hsays
      refine Meets.bind (meets_choose .customCount hlater.settled ⟨hcount, hsays⟩)
        fun h₂ workers hworkers => ?_
      obtain ⟨hlater', hsays'⟩ := hworkers
      exact Meets.pure ⟨hlater.trans hlater', .custom hcount (hlater'.kept _ hsays) hsays'⟩
    · rw [if_pos hcustom]
      cases hint : w.int count with
      | none => exact Meets.lift trivial
      | some workers => exact Meets.pure ⟨hlater, .chosen hcount hsays hint⟩

theorem strip_empty : strip "" = "" := rfl

theorem meets_build {pixi : Option String} {env : String} {conda : Option String}
    {cores memory : Value} (hs : Settled h)
    (hr : Resolved globalPixiProject a h (pixi, env, conda)) (hsize : SizeFrom a h cores memory)
    (hcores : le cores (.finite 0) = false) (hmemory : le memory (.finite 0) = false) :
    Meets (Permitted w globalPixiProject username a) (Unmade globalPixiProject)
      (fun h' options => h' = h ∧ Agreed w globalPixiProject username a h options) h
      (buildClusterOptions w username pixi env conda cores memory a.env) := by
  unfold buildClusterOptions
  extract_lets p c
  have hp : strip (pixi.getD "") = p := rfl
  have hc : strip (conda.getD "") = c := rfl
  clear_value p c
  refine Meets.bind (Q := fun h' _ => h = h' ∧ ¬(p ≠ "" ∧ c ≠ ""))
    (meets_refuse hs fun hdue => ⟨rfl, by simpa using hdue⟩) ?_
  rintro _ _ ⟨rfl, hboth⟩
  refine Meets.bind (Q := fun h' _ => h = h' ∧ ¬(p = "" ∧ c = ""))
    (meets_refuse hs fun hdue => ⟨rfl, by simpa using hdue⟩) ?_
  rintro _ _ ⟨rfl, hneither⟩
  by_cases hpixi : p = ""
  · have hconda : c ≠ "" := fun hconda => hneither ⟨hpixi, hconda⟩
    rw [if_neg (not_not.mpr hpixi)]
    refine Meets.pure ⟨rfl, ?_, .inr ⟨rfl, hconda⟩, hsize, ⟨hcores, hmemory⟩, rfl⟩
    cases hr with
    | given hgiven =>
      refine ⟨_, .givenConda (hp.trans hpixi) (hc ▸ hconda), ?_⟩
      simp only [Options.environment, Environment.placed, ← hc]
    | pixi he hempty =>
      rw [hempty, strip_empty] at hc
      exact absurd hc.symm hconda
    | conda he hempty =>
      refine ⟨_, he, ?_⟩
      simp only [Options.environment, Environment.placed, ← hc, Option.getD_some]
  · have hconda : c = "" := by
      by_contra hconda
      exact hboth ⟨hpixi, hconda⟩
    rw [if_pos hpixi]
    refine Meets.pure ⟨rfl, ?_, .inl ⟨hpixi, rfl⟩, hsize, ⟨hcores, hmemory⟩, rfl⟩
    cases hr with
    | given hgiven =>
      refine ⟨_, .givenPixi (hp ▸ hpixi), ?_⟩
      simp only [Options.environment, Environment.placed, ← hp]
      rfl
    | pixi he hempty =>
      refine ⟨_, he, ?_⟩
      simp only [Options.environment, Environment.placed, ← hp, Option.getD_some]
      rfl
    | conda he hempty =>
      rw [hempty, strip_empty] at hp
      exact absurd hp.symm hpixi

/-- What was settled before is agreed on once the options are built. -/
theorem meets_agreed {pixi : Option String} {env : String} {conda : Option String}
    {cores memory : Value} {workers : ℤ} (hs : Settled h)
    (hr : Resolved globalPixiProject a h (pixi, env, conda)) (hsize : SizeFrom a h cores memory)
    (hcores : le cores (.finite 0) = false) (hmemory : le memory (.finite 0) = false)
    (hcount : CountFrom w a h workers) :
    Meets (Permitted w globalPixiProject username a) (Unmade globalPixiProject)
      (fun h' r => Settled h' ∧ Agreed w globalPixiProject username a h' r.1 ∧
        CountFrom w a h' r.2) h
      (buildClusterOptions w username pixi env conda cores memory a.env >>= fun options =>
        (pure (options, workers) : Talk (Options × ℤ))) := by
  refine Meets.bind (meets_build hs hr hsize hcores hmemory) fun h₁ options hoptions => ?_
  obtain ⟨rfl, hagreed⟩ := hoptions
  exact Meets.pure ⟨hs, hagreed, hcount⟩

theorem Resolved.mono {r : Option String × String × Option String}
    (hr : Resolved globalPixiProject a h r) {h' : Log} (hh : ∀ e ∈ h, e ∈ h') :
    Resolved globalPixiProject a h' r := by
  cases hr with
  | given hgiven => exact .given hgiven
  | pixi he hempty => exact .pixi (he.mono hh) hempty
  | conda he hempty => exact .conda (he.mono hh) hempty

/-- From the environment on. -/
theorem meets_chosen (hs : Settled h)
    (hcores : (a.workerCores.any fun cores => le cores (.finite 0)) = false)
    (hmemory : (a.workerMemory.any fun memory => le memory (.finite 0)) = false)
    {pixi : Option String} {env : String} {conda : Option String}
    (hr : Resolved globalPixiProject a h (pixi, env, conda)) :
    Meets (Permitted w globalPixiProject username a) (Unmade globalPixiProject)
      (fun h' r => Settled h' ∧ Agreed w globalPixiProject username a h' r.1 ∧
        CountFrom w a h' r.2) h
      (resolveSize globalPixiProject a.workerCores a.workerMemory >>= fun size =>
        resolveCount w globalPixiProject a.nWorkers >>= fun workers =>
          buildClusterOptions w username pixi env conda size.1 size.2 a.env >>= fun options =>
            (pure (options, workers) : Talk (Options × ℤ))) := by
  refine Meets.bind (meets_resolveSize hs hcores hmemory) fun h₁ size hsize => ?_
  obtain ⟨h01, hsize, hcores, hmemory⟩ := hsize
  refine Meets.bind (meets_resolveCount h01.settled) fun h₂ workers hworkers => ?_
  obtain ⟨h12, hcount⟩ := hworkers
  exact meets_agreed h12.settled (hr.mono (h01.trans h12).kept) (hsize.mono h12.kept) hcores
    hmemory hcount

theorem meets_resolveCreation :
    Meets (Permitted w globalPixiProject username a) (Unmade globalPixiProject)
      (fun h' r => Settled h' ∧ Agreed w globalPixiProject username a h' r.1 ∧
        CountFrom w a h' r.2) [] (resolveCreation w globalPixiProject username a) := by
  have hs : Settled [] := by simp [Settled]
  unfold resolveCreation
  refine Meets.bind (Q := fun h' _ => h' = []) ?_ ?_
  · cases a.nWorkers with
    | none => exact Meets.pure rfl
    | some workers => exact meets_refuse hs fun _ => rfl
  rintro _ _ rfl
  refine Meets.bind (Q := fun h' _ => h' = [] ∧
    (a.workerCores.any fun cores => le cores (.finite 0)) = false)
    (meets_refuse hs fun hdue => ⟨rfl, hdue⟩) ?_
  rintro _ _ ⟨rfl, hcores⟩
  refine Meets.bind (Q := fun h' _ => h' = [] ∧
    (a.workerMemory.any fun memory => le memory (.finite 0)) = false)
    (meets_refuse hs fun hdue => ⟨rfl, hdue⟩) ?_
  rintro _ _ ⟨rfl, hmemory⟩
  refine Meets.bind (meets_resolveEnv hs) fun h₁ r hr => ?_
  obtain ⟨pixi, env, conda⟩ := r
  exact meets_chosen hr.1.settled hcores hmemory hr.2

end Questions

theorem gatewayHttpError_eq (w : Words) (resp : Response) (action : String)
    (cluster : Option String) :
    ∃ failed, gatewayHttpError w resp action cluster = .failure failed := by
  unfold gatewayHttpError
  dsimp only
  split
  · exact ⟨_, rfl⟩
  · split
    · exact ⟨_, rfl⟩
    · split <;> exact ⟨_, rfl⟩

section Waiting
variable {w : Words} {A : Log → Request → Prop} {I : Log → Prop} {h : Log} {cluster : String}

theorem meets_gateway {E : Log → Raised → Prop} {Q : Log → Response → Prop} {call : Call}
    (hcall : A h (.gateway call))
    (hok : ∀ resp, resp.status ∈ call.ok → Q (h ++ [⟨.gateway call, .value (.ok resp)⟩]) resp)
    (hfail : ∀ answer failed, (∀ resp, answer = .ok resp → resp.status ∉ call.ok) →
      E (h ++ [⟨.gateway call, .value answer⟩]) (.failure failed)) :
    Meets A E Q h (gateway w call) := by
  unfold gateway
  refine Meets.bind (Q := fun h' (answer : Except Unreached Response) =>
    h' = h ++ [⟨.gateway call, .value answer⟩]) (Meets.ask hcall fun answer => rfl) ?_
  rintro _ answer rfl
  cases answer with
  | error e => exact Meets.throw (hfail _ _ nofun)
  | ok resp =>
    dsimp only
    split_ifs with hstatus
    · exact Meets.pure (hok resp hstatus)
    · obtain ⟨failed, hfailed⟩ := gatewayHttpError_eq w resp call.action call.cluster
      rw [hfailed]
      refine Meets.throw (hfail _ _ fun resp' heq => ?_)
      cases heq
      exact hstatus

/-- What a wait for the cluster's scheduler asks. -/
def Request.Waits (cluster : String) : Request → Prop
  | .now | .sleep _ => True
  | .gateway (.record c _) => c = cluster
  | _ => False

/-- `I` allows a wait, and is kept by it. -/
def Waitable (A : Log → Request → Prop) (cluster : String) (I : Log → Prop) : Prop :=
  ∀ h r, I h → r.Waits cluster → A h r ∧ ∀ got, I (h ++ [⟨r, got⟩])

/-- A failure while `I` is kept. -/
def Failing (I : Log → Prop) (h : Log) : Raised → Prop
  | .failure _ => I h
  | .needsChoices _ | .unfinished => False

/-- What is raised while `I` is kept. -/
def Late (I : Log → Prop) (h : Log) : Raised → Prop
  | .failure _ => I h
  | .needsChoices _ => False
  | .unfinished => True

theorem Failing.late {raised : Raised} (hr : Failing I h raised) : Late I h raised := by
  cases raised with
  | failure failed => exact hr
  | needsChoices help => exact hr
  | unfinished => trivial

/-- The latest the gateway said of the cluster's status. -/
def latest (w : Words) (cluster : String) (h : Log) : Option String :=
  h.reverse.findSome? (statusFrom w cluster)

theorem meets_clusterStatus (hI : Waitable A cluster I) (hi : I h) :
    Meets A (Failing I) (fun h' status => I h' ∧ latest w cluster h' = some status) h
      (clusterStatus w cluster) := by
  unfold clusterStatus
  refine Meets.bind (Q := fun h' record => I h' ∧ latest w cluster h' = some (statusIn w record))
    ?_ fun h' record hrecord => Meets.pure hrecord
  unfold clusterRecord
  generalize s!"check the state of cluster '{cluster}'" = action
  obtain ⟨hcall, hafter⟩ := hI h (.gateway (.record cluster action)) hi rfl
  refine Meets.bind (Q := fun h' resp => I h' ∧ resp.status ∈ (Call.record cluster action).ok ∧
    h' = h ++ [⟨.gateway (.record cluster action), .value (.ok resp)⟩])
    (meets_gateway hcall (fun resp hok => ⟨hafter _, hok, rfl⟩) fun answer failed _ => hafter _)
    fun h' resp hresp => ?_
  obtain ⟨hi', hok, heq⟩ := hresp
  split
  · rename_i record hjson
    refine Meets.pure ⟨hi', ?_⟩
    simp [latest, heq, statusFrom, hok, hjson]
  · exact Meets.throw hi'

theorem meets_lookAtScheduler (hI : Waitable A cluster I) (hi : I h) (before : String) :
    Meets A (Failing I) (fun h' r => Sum.elim (fun status => I h' ∧ status ≠ "RUNNING")
      (fun _ => I h' ∧ Running w h' cluster) r) h (lookAtScheduler w cluster before) := by
  unfold lookAtScheduler
  refine Meets.bind (meets_clusterStatus hI hi) fun h' status hstatus => ?_
  obtain ⟨hi', hlatest⟩ := hstatus
  split_ifs with hrunning hended
  · rw [hrunning] at hlatest
    exact Meets.pure ⟨hi', hlatest⟩
  · exact Meets.throw hi'
  · exact Meets.pure ⟨hi', hrunning⟩

theorem Running.append (hr : Running w h cluster) {e : Exchange Request Answer}
    (he : statusFrom w cluster e = none) : Running w (h ++ [e]) cluster := by
  unfold Running at hr ⊢
  rw [List.reverse_append, List.reverse_singleton, List.singleton_append, List.findSome?_cons, he]
  exact hr

theorem meets_awaitScheduler (hI : Waitable A cluster I) (hi : I h) (looks : ℕ) :
    Meets A (Late I) (fun h' r => I h' ∧ (r.1 = "RUNNING" → Running w h' cluster)) h
      (awaitScheduler w looks cluster) := by
  have hnow {h : Log} (hi : I h) := hI h .now hi trivial
  unfold awaitScheduler
  refine Meets.bind (Meets.ask (T := fun h' _ => I h') (hnow hi).1 fun b => (hnow hi).2 _)
    fun h₁ begun hi₁ => ?_
  refine Meets.bind (Meets.ask (T := fun h' _ => I h') (hnow hi₁).1 fun b => (hnow hi₁).2 _)
    fun h₂ start hi₂ => ?_
  refine Meets.bind (Meets.wait (I := fun h' status => I h' ∧ status ≠ "RUNNING")
    (Q := fun h' _ => I h' ∧ Running w h' cluster)
    (fun h before hi => Meets.mono (meets_lookAtScheduler hI hi.1 before)
      (fun h' raised hr => hr.late) fun h' r hr => hr)
    (fun h status hi => ⟨(hnow hi.1).1, fun b => ⟨(hnow hi.1).2 _, hi.2⟩⟩)
    (fun h status d hi => ⟨(hI h (.sleep d) hi.1 trivial).1,
      fun b => ⟨(hI h (.sleep d) hi.1 trivial).2 _, hi.2⟩⟩)
    looks ⟨hi₂, by decide⟩) fun h₃ waited hwaited => ?_
  cases waited with
  | seen found =>
    obtain ⟨hi₃, hrunning⟩ := hwaited
    refine Meets.bind (Meets.ask (T := fun h' _ => I h' ∧ Running w h' cluster) (hnow hi₃).1
      fun b => ⟨(hnow hi₃).2 _, hrunning.append rfl⟩) fun h₄ now h4 => ?_
    exact Meets.pure ⟨h4.1, fun _ => h4.2⟩
  | expired status =>
    obtain ⟨hi₃, hne⟩ := hwaited
    refine Meets.bind (Meets.ask (T := fun h' _ => I h') (hnow hi₃).1 fun b => (hnow hi₃).2 _)
      fun h₄ now hi₄ => ?_
    exact Meets.pure ⟨hi₄, fun heq => absurd heq hne⟩
  | unfinished => exact Meets.throw trivial

theorem meets_scale {E : Log → Raised → Prop} {Q : Log → Prop} {workers : ℤ}
    (hcall : A h (.gateway (.scale cluster workers)))
    (hQ : ∀ got, Q (h ++ [⟨.gateway (.scale cluster workers), got⟩]))
    (hE : ∀ h' failed, Q h' → E h' (.failure failed)) :
    Meets A E (fun h' _ => Q h') h (scale w cluster workers) := by
  unfold scale
  refine Meets.bind (Q := fun h' _ => Q h') (meets_gateway hcall (fun resp _ => hQ _)
    fun answer failed _ => hE _ failed (hQ _)) fun h' resp hq => Meets.pure hq

end Waiting

section Creation
variable {w : Words} {globalPixiProject username : String} {a : CreateArgs} {h : Log}
  {cluster : String} {workers : ℤ}

/-- The cluster is made, and its workers are still to be asked for. -/
structure Begun (w : Words) (a : CreateArgs) (cluster : String) (workers : ℤ) (h : Log) : Prop where
  created : Created w h cluster
  unscaled : scalings h = 0
  count : CountFrom w a h workers

theorem Created.append (hc : Created w h cluster) (e : Exchange Request Answer) :
    Created w (h ++ [e]) cluster := by
  obtain ⟨options, resp, hmem, hrest⟩ := hc
  exact ⟨options, resp, List.mem_append_left _ hmem, hrest⟩

theorem waitable_begun :
    Waitable (Permitted w globalPixiProject username a) cluster (Begun w a cluster workers) := by
  intro h r hb hr
  have hafter (hr : r.scales = false) (got : Got (Answer r)) :
      Begun w a cluster workers (h ++ [⟨r, got⟩]) := by
    refine ⟨hb.created.append _, ?_, hb.count.mono fun e he => List.mem_append_left _ he⟩
    rw [scalings_append hr, hb.unscaled]
  cases r with
  | elicit form => exact hr.elim
  | now => exact ⟨⟨cluster, hb.created⟩, hafter rfl⟩
  | sleep d => exact ⟨⟨cluster, hb.created⟩, hafter rfl⟩
  | gateway call =>
    cases call with
    | record c action =>
      obtain rfl : c = cluster := hr
      exact ⟨⟨hb.created, hb.unscaled⟩, hafter rfl⟩
    | create options => exact hr.elim
    | scale c n => exact hr.elim

theorem meets_startWorkers (hb : Begun w a cluster workers h) (hne : workers ≠ 0) (looks : ℕ) :
    Meets (Permitted w globalPixiProject username a) (fun _ raised => raised = .unfinished)
      (fun h' _ => Created w h' cluster) h (startWorkers w looks cluster workers) := by
  unfold startWorkers
  refine Meets.bind (meets_catching (meets_awaitScheduler waitable_begun hb looks)
    fun h' raised hlate hother => ?_) fun h₁ r hr => ?_
  · cases raised with
    | failure failed => exact absurd rfl (hother failed)
    | needsChoices help => exact hlate.elim
    | unfinished => rfl
  cases r with
  | error failed => exact Meets.pure (Begun.created hr)
  | ok r =>
    obtain ⟨status, waited⟩ := r
    obtain ⟨hb₁, hrunning⟩ := hr
    dsimp only
    split_ifs with hstatus
    · exact Meets.pure hb₁.created
    refine Meets.bind (meets_catching (meets_scale
      (E := fun h' raised => Created w h' cluster ∧ ∃ failed, raised = .failure failed)
      ⟨hb₁.created, hb₁.unscaled, hrunning (not_not.mp hstatus), hb₁.count, hne⟩
      (fun got => hb₁.created.append _) fun h' failed hc => ⟨hc, failed, rfl⟩)
      fun h' raised hraised hother => ?_) fun h₂ r hr => ?_
    · obtain ⟨-, failed, hfailed⟩ := hraised
      exact absurd hfailed (hother failed)
    · cases r with
      | error failed => exact Meets.pure hr.1
      | ok clamped => exact Meets.pure hr

theorem meets_firstWorkers (hb : Begun w a cluster workers h) (looks : ℕ) :
    Meets (Permitted w globalPixiProject username a) (fun _ raised => raised = .unfinished)
      (fun h' _ => Created w h' cluster) h (firstWorkers w looks cluster workers) := by
  unfold firstWorkers
  split_ifs with hzero
  · exact Meets.pure hb.created
  · exact meets_startWorkers hb hzero looks

/-- An answer that names no cluster made none. -/
theorem Quiet.not_created_append (hq : Quiet h) {options : Options}
    {answer : Except Unreached Response} (hno : ∀ resp, answer = .ok resp →
      resp.status ∈ (Call.create options).ok → nameIn w resp = none) (cluster : String) :
    ¬Created w (h ++ [⟨.gateway (.create options), .value answer⟩]) cluster := by
  rintro ⟨options', resp, hmem, hok, hname⟩
  rcases List.mem_append.mp hmem with hmem | hmem
  · exact hq.not_created cluster ⟨options', resp, hmem, hok, hname⟩
  · cases List.mem_singleton.mp hmem
    rw [hno resp rfl hok] at hname
    cases hname

theorem Unmade.concluded {raised : Raised} (hr : Unmade globalPixiProject h raised) :
    Concluded w globalPixiProject h (.error raised) := by
  cases raised with
  | failure failed => exact fun cluster => Quiet.not_created hr cluster
  | needsChoices help => exact hr
  | unfinished => exact hr.elim

theorem prefix_intercalate (line : String) (lines : List String) :
    line.toList <+: ("\n".intercalate (line :: lines)).toList := by
  cases lines with
  | nil => simp
  | cons next lines =>
    rw [String.intercalate_cons_cons, String.toList_append, String.toList_append, List.append_assoc]
    exact List.prefix_append _ _

theorem meets_createDaskCluster (looks : ℕ) :
    Meets (Permitted w globalPixiProject username a)
      (fun h' raised => Concluded w globalPixiProject h' (.error raised))
      (fun h' text => Concluded w globalPixiProject h' (.ok text)) []
      (createDaskCluster w globalPixiProject looks username a) := by
  unfold createDaskCluster
  refine Meets.bind (Meets.mono meets_resolveCreation (fun h' raised hr => hr.concluded)
    fun h' r hr => hr) fun h₁ r hr => ?_
  obtain ⟨options, workers⟩ := r
  obtain ⟨hs, hagreed, hcount⟩ := hr
  refine Meets.bind (Q := fun h' resp => resp.status ∈ (Call.create options).ok ∧
    h' = h₁ ++ [⟨.gateway (.create options), .value (.ok resp)⟩])
    (meets_gateway ⟨hs, hagreed⟩ (fun resp hok => ⟨hok, rfl⟩) fun answer failed hanswer => ?_)
    fun h₂ resp hresp => ?_
  · exact hs.quiet.not_created_append fun resp heq hok => absurd hok (hanswer resp heq)
  obtain ⟨hok, rfl⟩ := hresp
  cases hname : nameIn w resp with
  | none =>
    refine Meets.throw (hs.quiet.not_created_append fun resp' heq _ => ?_)
    cases heq
    exact hname
  | some cluster =>
    have hb : Begun w a cluster workers
        (h₁ ++ [⟨.gateway (.create options), .value (.ok resp)⟩]) := by
      refine ⟨⟨options, resp, by simp, hok, hname⟩, ?_,
        hcount.mono fun e he => List.mem_append_left _ he⟩
      rw [scalings_append rfl, hs.quiet.scalings]
    refine Meets.bind (Meets.mono (meets_firstWorkers hb looks) (fun h' raised hr => ?_)
      fun h' more hc => hc) fun h₃ more hc => ?_
    · rw [hr]
      trivial
    · exact Meets.pure ⟨cluster, hc, prefix_intercalate _ _⟩

end Creation

section Scaling
variable {w : Words} {cluster : String} {workers : ℤ} {h : Log}

/-- What a scaling may ask. -/
def ScalePermitted (w : Words) (cluster : String) (workers : ℤ) (h : Log) : Request → Prop
  | .gateway (.record c _) => c = cluster ∧ scalings h = 0
  | .gateway (.scale c n) => c = cluster ∧ n = workers ∧ 0 ≤ workers ∧ validName cluster = true ∧
      scalings h = 0 ∧ Running w h cluster
  | .now | .sleep _ => True
  | .elicit _ | .gateway (.create _) => False

/-- A call that did not ask for the workers says so, or raises. -/
def ScaleConcluded (h : Log) : Except Raised String → Prop
  | .ok text => scalings h = 0 → "No scale request was sent: cluster '".toList <+: text.toList
  | .error raised => ∀ help, raised ≠ .needsChoices help

theorem waitable_unscaled :
    Waitable (ScalePermitted w cluster workers) cluster fun h => scalings h = 0 := by
  intro h r hnone hr
  have hafter (hr : r.scales = false) (got : Got (Answer r)) : scalings (h ++ [⟨r, got⟩]) = 0 := by
    rw [scalings_append hr, hnone]
  cases r with
  | elicit form => exact hr.elim
  | now => exact ⟨trivial, hafter rfl⟩
  | sleep d => exact ⟨trivial, hafter rfl⟩
  | gateway call =>
    cases call with
    | record c action => exact ⟨⟨hr, hnone⟩, hafter rfl⟩
    | create options => exact hr.elim
    | scale c n => exact hr.elim

theorem meets_scaleDaskCluster (looks : ℕ) :
    Meets (ScalePermitted w cluster workers)
      (fun h' raised => ScaleConcluded h' (.error raised))
      (fun h' text => ScaleConcluded h' (.ok text)) []
      (scaleDaskCluster w looks cluster workers) := by
  have hnone : scalings [] = 0 := rfl
  unfold scaleDaskCluster validateClusterName checkWorkerCount
  refine Meets.bind (Q := fun h' _ => h' = [] ∧ validName cluster = true)
    (meets_refusal (fun _ => nofun) fun hdue => ⟨rfl, by simpa using hdue⟩) ?_
  rintro _ _ ⟨rfl, hname⟩
  refine Meets.bind (Q := fun h' _ => h' = [] ∧ 0 ≤ workers)
    (meets_refusal (fun _ => nofun) fun hdue => ⟨rfl, by simpa using hdue⟩) ?_
  rintro _ _ ⟨rfl, hworkers⟩
  refine Meets.bind (Meets.mono (meets_awaitScheduler waitable_unscaled hnone looks)
    (fun h' raised hr => ?_) fun h' r hr => hr) fun h₁ r hr => ?_
  · cases raised with
    | failure failed => nofun
    | needsChoices help => exact hr.elim
    | unfinished => nofun
  obtain ⟨status, waited⟩ := r
  obtain ⟨hnone₁, hrunning⟩ := hr
  dsimp only
  by_cases hstatus : status ≠ "RUNNING"
  · rw [if_pos hstatus]
    refine Meets.pure fun _ => ?_
    simp only [String.toList_append, List.append_assoc]
    exact List.prefix_append _ _
  rw [if_neg hstatus]
  have hscale : ScalePermitted w cluster workers h₁ (.gateway (.scale cluster workers)) :=
    ⟨rfl, rfl, hworkers, hname, hnone₁, hrunning (not_not.mp hstatus)⟩
  refine Meets.bind (meets_scale (Q := fun h' => scalings h' ≠ 0) hscale (fun got => ?_)
    fun h' failed _ => nofun) fun h₂ clamped hsome => Meets.pure fun hzero => absurd hzero hsome
  unfold scalings
  simp [List.countP_append, Request.scales]

end Scaling

-- By a clock that keeps going, a wait has time for `41` looks.
section Finishing
variable {σ α γ : Type} {S : Service Request Answer σ} {time : σ → ℚ} {s : σ} {w : Words}
  {looks : ℕ}

def Finishes (S : Service Request Answer σ) (s : σ) (p : Talk α) : Prop :=
  (run S p.run s).value ≠ some (.error .unfinished)

theorem Finishes.bind {p : Talk α} {f : α → Talk γ} (hp : Finishes S s p)
    (hf : ∀ a, (run S p.run s).value = some (.ok a) → Finishes S (run S p.run s).state (f a)) :
    Finishes S s (p >>= f) := by
  unfold Finishes at hp hf ⊢
  rw [run_raising_bind]
  generalize run S p.run s = o at hp hf ⊢
  obtain ⟨log, s', value⟩ := o
  cases value with
  | none => nofun
  | some r =>
    cases r with
    | ok a => exact hf a rfl
    | error raised => simpa [Outcome.andThen] using hp

theorem Finishes.of_meets {p : Talk α} {A : Log → Request → Prop} {E : Log → Raised → Prop}
    {Q : Log → α → Prop} (hp : Meets A E Q [] p) (hE : ∀ h, ¬E h .unfinished) (s : σ) :
    Finishes S s p :=
  fun h => hE _ ((hp.of_run S s).2.2 _ h)

theorem value_catching (p : Talk α) (s : σ) :
    (run S (catching p).run s).value = (run S p.run s).value.map fun
      | .ok a => .ok (.ok a)
      | .error (.failure failed) => .ok (.error failed)
      | .error raised => .error raised := by
  change (run S ((p.run >>= _) >>= _) s).value = _
  rw [run_bind, run_bind]
  generalize run S p.run s = o
  obtain ⟨log, s', value⟩ := o
  cases value with
  | none => rfl
  | some r =>
    cases r with
    | ok a => rfl
    | error raised => cases raised <;> rfl

theorem Finishes.catching {p : Talk α} (hp : Finishes S s p) : Finishes S s (catching p) := by
  unfold Finishes at hp ⊢
  rw [value_catching]
  cases hvalue : (run S p.run s).value with
  | none => nofun
  | some r =>
    cases r with
    | ok a => nofun
    | error raised =>
      cases raised with
      | failure failed => nofun
      | needsChoices help => nofun
      | unfinished => exact absurd hvalue hp

theorem finishes_gateway (call : Call) (s : σ) : Finishes S s (gateway w call) :=
  Finishes.of_meets (A := fun _ _ => True) (E := fun _ raised => raised ≠ .unfinished)
    (Q := fun _ _ => True) (meets_gateway trivial (fun _ _ => trivial) fun _ _ _ => nofun)
    (fun _ hne => hne rfl) s

theorem finishes_refuse (due : Bool) (text : String) (s : σ) : Finishes S s (refuse due text) := by
  unfold refuse
  cases due <;> nofun

theorem finishes_ask (r : Request) (s : σ) : Finishes S s (ask r : Talk (Answer r)) :=
  Finishes.of_meets (A := fun _ _ => True) (E := fun _ raised => raised ≠ .unfinished)
    (Q := fun _ _ => True) (Meets.ask trivial fun _ => trivial) (fun _ hne => hne rfl) s

/-- A look raises only failures, so that a wait with too few of them is told from one that raised. -/
theorem finishes_wait (cluster status : String) (interval deadline : ℚ) (looks : ℕ) (s : σ) :
    Finishes S s (wait clock interval deadline (lookAtScheduler w cluster) looks status) := by
  let always : Log → Prop := fun _ => True
  have hI : Waitable (fun _ _ => True) cluster always :=
    fun _ _ _ _ => ⟨trivial, fun _ => trivial⟩
  refine Finishes.of_meets (A := fun _ _ => True) (E := Failing always)
    (Meets.wait (I := fun _ _ => True) (Q := fun _ _ => True) (fun h before _ => ?_)
      (fun _ _ _ => ⟨trivial, fun _ => trivial⟩) (fun _ _ _ _ => ⟨trivial, fun _ => trivial⟩) looks
      trivial) (fun _ hr => hr) s
  refine Meets.mono (meets_lookAtScheduler hI trivial before) (fun h' raised hr => hr)
    fun h' r _ => ?_
  cases r <;> trivial

theorem finishes_awaitScheduler (hT : Timed clock S time) (hlooks : 41 ≤ looks)
    (cluster : String) (s : σ) : Finishes S s (awaitScheduler w looks cluster) := by
  unfold awaitScheduler Finishes
  rw [run_ask_bind]
  cases hbegun : (S s .now).1 with
  | error => nofun
  | cancelled => nofun
  | value begun =>
    have hshown : (begun : ℚ) ≤ time (S s .now).2 := (hT.shown s begun hbegun).2
    dsimp only
    generalize (S s .now).2 = s₁ at hshown ⊢
    rw [run_ask_bind]
    cases hstart : (S s₁ .now).1 with
    | error => nofun
    | cancelled => nofun
    | value start =>
      have honward : time s₁ ≤ time (S s₁ .now).2 := hT.onward s₁ .now
      dsimp only
      generalize (S s₁ .now).2 = s₂ at honward ⊢
      refine Finishes.bind (finishes_wait cluster "" _ _ looks s₂) fun waited hwaited => ?_
      cases waited with
      | seen found => exact (finishes_ask .now _).bind fun now _ => nofun
      | expired status => exact (finishes_ask .now _).bind fun now _ => nofun
      | unfinished =>
        obtain ⟨k, rfl⟩ := Nat.exists_eq_add_of_le hlooks
        have hdeadline : (begun : ℚ) + schedulerReadyTimeout ≤
            time s₂ + (40 : ℕ) * schedulerPollInterval := by
          unfold schedulerReadyTimeout schedulerPollInterval
          push_cast
          linarith
        obtain ⟨hsame, hends⟩ := wait_enough (lookAtScheduler w cluster) hT
          (by decide : 0 ≤ schedulerPollInterval) hdeadline k ""
        exact absurd ((congrArg Outcome.value hsame).symm.trans hwaited) hends

theorem finishes_startWorkers (hT : Timed clock S time) (hlooks : 41 ≤ looks) (cluster : String)
    (workers : ℤ) (s : σ) : Finishes S s (startWorkers w looks cluster workers) := by
  unfold startWorkers
  refine (finishes_awaitScheduler hT hlooks cluster s).catching.bind fun r _ => ?_
  cases r with
  | error failed => nofun
  | ok r =>
    obtain ⟨status, waited⟩ := r
    dsimp only
    split_ifs with hstatus
    · nofun
    refine Finishes.bind (Finishes.catching ?_) fun r _ => ?_
    · exact (finishes_gateway _ _).bind fun resp _ => nofun
    · cases r <;> nofun

/-- With enough looks a creation ends. -/
theorem finishes_createDaskCluster (hT : Timed clock S time) (hlooks : 41 ≤ looks)
    (globalPixiProject username : String) (a : CreateArgs) (s : σ) :
    Finishes S s (createDaskCluster w globalPixiProject looks username a) := by
  unfold createDaskCluster
  refine (Finishes.of_meets (@meets_resolveCreation w globalPixiProject username a)
    (fun _ hr => hr) s).bind fun r _ => ?_
  obtain ⟨options, workers⟩ := r
  refine (finishes_gateway _ _).bind fun resp _ => ?_
  dsimp only
  split
  · nofun
  · refine Finishes.bind ?_ fun more _ => nofun
    unfold firstWorkers
    split_ifs
    · nofun
    · exact finishes_startWorkers hT hlooks _ workers _

/-- With enough looks a scaling ends. -/
theorem finishes_scaleDaskCluster (hT : Timed clock S time) (hlooks : 41 ≤ looks)
    (cluster : String) (workers : ℤ) (s : σ) :
    Finishes S s (scaleDaskCluster w looks cluster workers) := by
  unfold scaleDaskCluster validateClusterName checkWorkerCount
  refine (finishes_refuse _ _ s).bind fun _ _ => ?_
  refine (finishes_refuse _ _ _).bind fun _ _ => ?_
  refine (finishes_awaitScheduler hT hlooks cluster _).bind fun r _ => ?_
  obtain ⟨status, waited⟩ := r
  dsimp only
  by_cases hstatus : status ≠ "RUNNING"
  · rw [if_pos hstatus]
    nofun
  · rw [if_neg hstatus]
    refine Finishes.bind ?_ fun clamped _ => nofun
    exact (finishes_gateway _ _).bind fun resp _ => nofun

end Finishing

theorem scalings_le_one {A : Log → Request → Prop} {log : Log}
    (hasked : ∀ before r got after, log = before ++ ⟨r, got⟩ :: after → A before r)
    (hfirst : ∀ h cluster workers, A h (.gateway (.scale cluster workers)) → scalings h = 0) :
    scalings log ≤ 1 := by
  refine countP_le_of_forall fun before e after hlog he => ?_
  obtain ⟨r, got⟩ := e
  have hr := hasked before r got after hlog
  cases r with
  | gateway call =>
    cases call with
    | scale cluster workers => exact (hfirst before cluster workers hr).le
    | _ => cases he
  | _ => cases he

section Runs
variable {σ : Type} (S : Service Request Answer σ) (s : σ) (w : Words) (looks : ℕ)

/-- However the user, the gateway and the clock answer or fail: each request is one a creation may
make, the cluster is made at most once and scaled at most once, and the call ends as the requests
before tell it to. By a clock that keeps going it ends by itself. -/
theorem created_of_run (globalPixiProject username : String) (a : CreateArgs) :
    let o := run S (createDaskCluster w globalPixiProject looks username a).run s
    (∀ before r got after, o.log = before ++ ⟨r, got⟩ :: after →
      Permitted w globalPixiProject username a before r) ∧
    creations o.log ≤ 1 ∧ scalings o.log ≤ 1 ∧
    (∀ r, o.value = some r → Concluded w globalPixiProject o.log r) ∧
    ((∃ time, Timed clock S time) → 41 ≤ looks → o.value ≠ some (.error .unfinished)) := by
  obtain ⟨hasked, hok, hraised⟩ := (@meets_createDaskCluster w globalPixiProject username a
    looks).of_run S s
  refine ⟨hasked, ?_, ?_, fun r hr => ?_, fun ⟨time, hT⟩ hlooks => ?_⟩
  · refine countP_le_of_forall fun before e after hlog he => ?_
    obtain ⟨r, got⟩ := e
    have hr := hasked before r got after hlog
    cases r with
    | gateway call =>
      cases call with
      | create options => exact hr.1.quiet.creations.le
      | _ => cases he
    | _ => cases he
  · exact scalings_le_one hasked fun h cluster workers hr => hr.2.1
  · cases r with
    | ok text => exact hok text hr
    | error raised => exact hraised raised hr
  · exact finishes_createDaskCluster hT hlooks globalPixiProject username a s

/-- A scaling asks for the workers at most once, and only of a scheduler that was running at the
last look. By a clock that keeps going it ends by itself. -/
theorem scaled_of_run (cluster : String) (workers : ℤ) :
    let o := run S (scaleDaskCluster w looks cluster workers).run s
    (∀ before r got after, o.log = before ++ ⟨r, got⟩ :: after →
      ScalePermitted w cluster workers before r) ∧
    scalings o.log ≤ 1 ∧ (∀ r, o.value = some r → ScaleConcluded o.log r) ∧
    ((∃ time, Timed clock S time) → 41 ≤ looks → o.value ≠ some (.error .unfinished)) := by
  obtain ⟨hasked, hok, hraised⟩ := (@meets_scaleDaskCluster w cluster workers looks).of_run S s
  refine ⟨hasked, ?_, fun r hr => ?_, fun ⟨time, hT⟩ hlooks => ?_⟩
  · exact scalings_le_one hasked fun h c n hr => hr.2.2.2.2.1
  · cases r with
    | ok text => exact hok text hr
    | error raised => exact hraised raised hr
  · exact finishes_scaleDaskCluster hT hlooks cluster workers s

end Runs

/-- A gateway whose scheduler runs after five seconds, and a user who takes ten workers. -/
def patient : Service Request Answer ℚ := fun t r =>
  match r with
  | .elicit .env => (.value (some "global"), t)
  | .elicit .count => (.value (some "10"), t)
  | .elicit .size => (.value (some "default"), t)
  | .elicit _ => (.value none, t)
  | .gateway (.create _) => (.value (.ok ⟨201, "", some (.dict [("name", .str "cms.1")])⟩), t)
  | .gateway (.record _ _) =>
    let status := if t < 5 then "PENDING" else "RUNNING"
    (.value (.ok ⟨200, "", some (.dict [("status", .str status)])⟩), t)
  | .gateway _ => (.value (.ok ⟨200, "", some (.dict [("ok", .bool true)])⟩), t)
  | .now => (.value t, t)
  | .sleep d => (.value (), t + max d 0)

theorem timed_patient : Timed clock patient id where
  onward t r := by
    cases r with
    | elicit form => cases form <;> exact le_refl _
    | gateway call => cases call <;> exact le_refl _
    | now => exact le_refl _
    | sleep d => exact le_add_of_nonneg_right (le_max_right _ _)
  shown t b hb := by
    obtain rfl : t = b := Got.value.inj hb
    exact ⟨le_refl _, le_refl _⟩
  slept t d b _ := by
    simp [patient, clock]

def asciiWords : Words where
  loads _ := none
  str
    | .str text => text
    | _ => "None"
  repr text := s!"'{text}'"
  upper text := text
  lower text := text
  number _ := "1.0"
  rounded _ := "6"
  int text := if text = "10" then some 10 else none

def everythingOpen : CreateArgs := ⟨none, none, "default", none, none, none, none, none⟩

theorem created_of_run_patient :
    let o := run patient
      (createDaskCluster asciiWords "/work/global" 41 "alice" everythingOpen).run 0
    creations o.log = 1 ∧ scalings o.log = 1 ∧ o.value ≠ some (.error .unfinished) := by
  intro o
  obtain ⟨-, -, -, -, hends⟩ := created_of_run patient 0 asciiWords 41 "/work/global" "alice"
    everythingOpen
  exact ⟨by decide +kernel, by decide +kernel, hends ⟨id, timed_patient⟩ (by decide)⟩

theorem scaled_of_run_patient :
    let o := run patient (scaleDaskCluster asciiWords 41 "cms.1" 10).run 0
    scalings o.log = 1 ∧ o.value ≠ some (.error .unfinished) := by
  intro o
  obtain ⟨-, -, -, hends⟩ := scaled_of_run patient 0 asciiWords 41 "cms.1" 10
  exact ⟨by decide +kernel, hends ⟨id, timed_patient⟩ (by decide)⟩

end PurdueAF.DaskTools

import PurdueAF.RayClusterBudget
import PurdueAF.RaySettings

/-!
# The objects a cluster is created from

`buildCluster` fills the template of `raycluster.yaml` in: the user and the shape into both
pods, and a mix of workers into groups of one flavor each. Admission later counts the GPUs of a
cluster back from these groups.
-/
namespace PurdueAF.RayClusterSpecs
open Py Ray RayNaming RayClusters

/-- The fields of an object that are only carried over. -/
abbrev Fields := Dict String Json

abbrev Amounts := Dict String Json

/-- A variable of a container: with a value, or with a source its value is read from. -/
inductive Variable
  | plain (name value : String)
  | sourced (name : String) (source : Fields)

structure Container where
  env : Option (List Variable)
  resources : Dict String Amounts
  rest : Fields

structure Pod where
  securityContext : Option Fields
  priorityClassName : Option String
  containers : List Container
  rest : Fields

/-- A worker group, with the pod of its template. -/
structure Group where
  groupName : Option String
  replicas : Option Json
  minReplicas : Option Json
  maxReplicas : Option Json
  pod : Pod
  rest : Fields

structure Spec where
  authOptions : Fields
  head : Pod
  workerGroupSpecs : List Group
  rest : Fields

/-- A RayCluster as the Kubernetes API has it. -/
structure Manifest where
  name : String
  labels : Option (Dict String String)
  annotations : Option (Dict String String)
  spec : Spec
  rest : Fields

structure JobManifest where
  name : String
  labels : Dict String String
  annotations : Dict String String
  submissionMode : String
  shutdownAfterJobFinishes : Bool
  ttlSecondsAfterFinished : ℤ
  rayClusterSpec : Spec

def managedBy : String := "ray-train-gateway"
def ownerLabel : String := "purdue-af/ray-owner"
def mostVariable : String := "AF_MAX_WORKERS"
def preemptiblePriorityClass : String := "medium-priority-preemptible"

/-- `re.sub(r"[^a-z0-9]+", "-", resource.rpartition("/")[2])`. -/
def group (f : Flavor) : String :=
  .ofList (slug false (f.resource.toList.reverse.takeWhile (· ≠ '/')).reverse)

def groupName (f : Flavor) (preemptible : Bool) : String :=
  group f ++ if preemptible then "-preemptible" else ""

def Container.sized (shape : Shape) (c : Container) : Container :=
  { c with resources := c.resources.map fun e =>
      (e.1, Dict.overlay e.2 [("cpu", .str shape.cpus), ("memory", .str (shape.ram ++ "Gi"))]) }

/-- The environment's directory in front of the `PATH`; one without a value is a `KeyError`. -/
def Variable.pathed (env : String) : Variable → Option Variable
  | .plain name value =>
    some (.plain name (if name = "PATH" then env ++ "/bin:" ++ value else value))
  | .sourced name source => if name = "PATH" then none else some (.sourced name source)

def Container.entered (user : User) (shape : Shape) (c : Container) : Option Container := do
  let vars ← (c.env.getD []).mapM (Variable.pathed shape.env)
  return { c with env := some (vars ++ [.plain "CONDA_PREFIX" shape.env,
    .plain "USER" user.account, .plain mostVariable shape.workers]) }

def Pod.entered (user : User) (shape : Shape) (pod : Pod) : Option Pod := do
  let containers ← pod.containers.mapM (Container.entered user shape)
  return { pod with
    securityContext := some (Dict.overlay (pod.securityContext.getD [])
      [("runAsUser", .int user.uid), ("runAsGroup", .int user.gid)])
    containers := containers }

/-- One flavor's GPUs in place of those of any other. -/
def withGpus (f : Flavor) (perWorker : ℕ) (amounts : Amounts) : Amounts :=
  (flavors.foldl (fun amounts other => Dict.pop amounts other.resource) amounts).set
    f.resource (.int perWorker)

def workerGroup (template : Group) (f : Flavor) (perWorker replicas : ℕ) (preemptible : Bool) :
    Group where
  groupName := some (groupName f preemptible)
  replicas := some (.int replicas)
  minReplicas := some (.int replicas)
  maxReplicas := some (.int replicas)
  pod := { template.pod with
    priorityClassName :=
      if preemptible then some preemptiblePriorityClass else template.pod.priorityClassName
    containers := template.pod.containers.map fun c =>
      { c with resources := c.resources.map fun e => (e.1, withGpus f perWorker e.2) } }
  rest := template.rest

/-- One turn of the inner loop. `int` is called for a group with workers only. -/
def groupOf (template : Group) (perWorker : String) (f : Flavor) (replicas : ℕ)
    (preemptible : Bool) : Option (List Group) :=
  if 0 < replicas then
    (int? perWorker).map fun p => [workerGroup template f p replicas preemptible]
  else some []

def workerGroups (template : Group) (perWorker : String) (mix : Gpus) :
    List Flavor → ℕ → Option (List Group)
  | [], _ => some []
  | f :: fs, kept => do
    let workers := mix.count f.resource
    let firm ← groupOf template perWorker f (min kept workers) false
    let preemptible ← groupOf template perWorker f (workers - kept) true
    let others ← workerGroups template perWorker mix fs (kept - workers)
    return firm ++ preemptible ++ others

/-- The user's cluster, with `mix` workers of each GPU resource; `none` where the template is
not of the form the code unpacks. -/
def buildCluster (template : Manifest) (user : User) (shape : Shape) (mix : Gpus) :
    Option Manifest :=
  match template.spec.workerGroupSpecs with
  | [group] => do
    let sized := { group.pod with containers := group.pod.containers.map (Container.sized shape) }
    let head ← template.spec.head.entered user shape
    let pod ← sized.entered user shape
    let groups ← workerGroups { group with pod := pod } shape.perWorker mix flavors 1
    return { template with
      name := user.cluster
      labels := some ((template.labels.getD []).set "app.kubernetes.io/managed-by" managedBy)
      annotations := some (Dict.overlay (template.annotations.getD []) (annotate shape))
      spec := { template.spec with
        authOptions := template.spec.authOptions.set "secretName" (.str user.cluster)
        head := head
        workerGroupSpecs := groups } }
  | _ => none

def Spec.named (spec : Spec) (secret : String) : Spec :=
  { spec with authOptions := spec.authOptions.set "secretName" (.str secret) }

def buildJob (template : Manifest) (user : User) (shape : Shape) (mix : Gpus) (name : String) :
    Option JobManifest := do
  let cluster ← buildCluster template user shape mix
  return {
    name := name
    labels := (cluster.labels.getD []).set ownerLabel user.cluster
    annotations := cluster.annotations.getD []
    submissionMode := "InteractiveMode"
    shutdownAfterJobFinishes := true
    ttlSecondsAfterFinished := idleTimeoutS
    rayClusterSpec := cluster.spec.named name }

def addLimit (replicas : Option Json) (limits : Amounts) (held : Dict String ℤ) (f : Flavor) :
    Except Exc (Dict String ℤ) :=
  match limits.get? f.resource with
  | none => .ok held
  | some amount => do
    let n ← (replicas.getD (.int 0)).toInt
    let m ← amount.toInt
    return held.set f.resource ((held.get? f.resource).getD 0 + n * m)

def addContainer (replicas : Option Json) (held : Dict String ℤ) (c : Container) :
    Except Exc (Dict String ℤ) :=
  flavors.foldlM (addLimit replicas ((c.resources.get? "limits").getD [])) held

def addGroup (held : Dict String ℤ) (g : Group) : Except Exc (Dict String ℤ) :=
  g.pod.containers.foldlM (addContainer g.replicas) held

/-- The GPUs the cluster's workers have of each resource. -/
def heldGpus (cluster : Manifest) : Except Exc (Dict String ℤ) :=
  cluster.spec.workerGroupSpecs.foldlM addGroup []

def shapeOf (cluster : Manifest) : Shape := clusterShape (cluster.annotations.getD [])

theorem groupName_inj : ∀ f ∈ flavors, ∀ g ∈ flavors, ∀ pre pre' : Bool,
    groupName f pre = groupName g pre' → f = g ∧ pre = pre' := by decide +kernel

/-- A group of the cluster's model, written out. -/
def render (template : Group) (w : WorkerGroup) : Group :=
  match flavors.find? fun f => f.resource = w.resource with
  | some f => workerGroup template f w.perWorker w.replicas w.preemptible
  | none => template

theorem render_eq {template : Group} {w : WorkerGroup} {f : Flavor} (hf : f ∈ flavors)
    (hw : w.resource = f.resource) :
    render template w = workerGroup template f w.perWorker w.replicas w.preemptible := by
  have hfind : flavors.find? (fun g => g.resource = w.resource) = some f := by
    cases hg : flavors.find? fun g => g.resource = w.resource with
    | none => exact absurd (List.find?_eq_none.mp hg f hf) (by simp [hw])
    | some g =>
      have hres : g.resource = w.resource := by simpa using List.find?_some hg
      rw [resource_inj g (List.mem_of_find?_eq_some hg) f hf (hres.trans hw)]
  rw [render, hfind]

theorem groupOf_eq {template : Group} {perWorker : String} {p : ℕ} (hp : int? perWorker = some p)
    {f : Flavor} (hf : f ∈ flavors) (n : ℕ) (pre : Bool) :
    groupOf template perWorker f n pre =
      some ((RayClusters.workerGroup f.resource p n pre).map (render template)) := by
  unfold groupOf RayClusters.workerGroup
  by_cases hn : n = 0
  · simp [hn]
  · have hpos : 0 < n := by omega
    have hr : render template ⟨f.resource, p, n, pre⟩ = workerGroup template f p n pre :=
      render_eq hf rfl
    simp [hpos, hn, hp, hr]

/-- The loop of `build_cluster` writes out the groups that the cluster's model has. -/
theorem workerGroups_eq {template : Group} {perWorker : String} {p : ℕ}
    (hp : int? perWorker = some p) (mix : Gpus) {fs : List Flavor} (hfs : ∀ f ∈ fs, f ∈ flavors)
    (kept : ℕ) :
    workerGroups template perWorker mix fs kept =
      some ((RayClusters.workerGroups p mix fs kept).map (render template)) := by
  induction fs generalizing kept with
  | nil => rfl
  | cons f fs ih =>
    have hf := hfs f (by simp)
    simp [workerGroups, RayClusters.workerGroups, groupOf_eq hp hf,
      ih fun g hg => hfs g (by simp [hg])]

section Groups
variable {p : ℕ} {mix : Gpus}

theorem mem_workerGroup {r : String} {n : ℕ} {pre : Bool} {w : WorkerGroup}
    (h : w ∈ RayClusters.workerGroup r p n pre) : w = ⟨r, p, n, pre⟩ ∧ n ≠ 0 := by
  unfold RayClusters.workerGroup at h
  split_ifs at h with hn
  · cases h
  · exact ⟨List.mem_singleton.mp h, hn⟩

theorem resource_of_mem {fs : List Flavor} {kept : ℕ} {w : WorkerGroup}
    (h : w ∈ RayClusters.workerGroups p mix fs kept) : w.resource ∈ fs.map Flavor.resource := by
  induction fs generalizing kept with
  | nil => cases h
  | cons f fs ih =>
    rw [RayClusters.workerGroups, List.mem_append, List.mem_append] at h
    rcases h with (h | h) | h
    · simp [(mem_workerGroup h).1]
    · simp [(mem_workerGroup h).1]
    · exact List.mem_cons_of_mem _ (ih h)

theorem sum_workerGroup (q : WorkerGroup → Bool) (r : String) (n : ℕ) (pre : Bool) :
    (((RayClusters.workerGroup r p n pre).filter q).map WorkerGroup.replicas).sum =
      if q ⟨r, p, n, pre⟩ then n else 0 := by
  unfold RayClusters.workerGroup
  by_cases hn : n = 0
  · simp [hn]
  · by_cases hq : q ⟨r, p, n, pre⟩ = true
    · simp [hn, hq]
    · simp [hn, hq]

theorem sum_replicas_of (fs : List Flavor) (hn : (fs.map Flavor.resource).Nodup) (kept : ℕ)
    {f : Flavor} (hf : f ∈ fs) :
    (((RayClusters.workerGroups p mix fs kept).filter fun w => w.resource = f.resource).map
      WorkerGroup.replicas).sum = mix.count f.resource := by
  induction fs generalizing kept with
  | nil => cases hf
  | cons g fs ih =>
    rw [List.map_cons, List.nodup_cons] at hn
    simp only [RayClusters.workerGroups, List.filter_append, List.map_append, List.sum_append,
      sum_workerGroup, decide_eq_true_eq]
    rcases List.mem_cons.mp hf with rfl | hf
    · have hnone : (RayClusters.workerGroups p mix fs (kept - mix.count f.resource)).filter
          (fun w => w.resource = f.resource) = [] := by
        apply List.filter_eq_nil_iff.mpr
        intro w hw heq
        exact hn.1 (of_decide_eq_true heq ▸ resource_of_mem hw)
      rw [hnone, if_pos rfl, if_pos rfl]
      simp only [List.map_nil, List.sum_nil]
      omega
    · have hne : g.resource ≠ f.resource :=
        fun heq => hn.1 (heq ▸ List.mem_map_of_mem (f := Flavor.resource) hf)
      rw [if_neg hne, if_neg hne, ih hn.2 _ hf, Nat.zero_add]

/-- Of all the workers, `kept` are not preemptible. -/
theorem sum_replicas_firm (fs : List Flavor) (kept : ℕ) :
    (((RayClusters.workerGroups p mix fs kept).filter fun w => !w.preemptible).map
      WorkerGroup.replicas).sum = min kept (fs.map fun f => mix.count f.resource).sum := by
  induction fs generalizing kept with
  | nil => simp [RayClusters.workerGroups]
  | cons f fs ih =>
    simp only [RayClusters.workerGroups, List.filter_append, List.map_append, List.sum_append,
      sum_workerGroup, ih, List.map_cons, List.sum_cons, Bool.not_false, if_true, Bool.not_true,
      Bool.false_eq_true, if_false]
    omega

/-- Once the first worker is placed, all are preemptible. -/
theorem preemptible_of_mem {fs : List Flavor} {w : WorkerGroup}
    (h : w ∈ RayClusters.workerGroups p mix fs 0) : w.preemptible = true := by
  induction fs with
  | nil => cases h
  | cons f fs ih =>
    rw [RayClusters.workerGroups, List.mem_append, List.mem_append] at h
    rcases h with (h | h) | h
    · exact absurd (Nat.zero_min _) (mem_workerGroup h).2
    · rw [(mem_workerGroup h).1]
    · exact ih (by simpa using h)

theorem firm_first {fs : List Flavor} {w : WorkerGroup}
    (h : w ∈ RayClusters.workerGroups p mix fs 1) (hw : w.preemptible = false) :
    w.replicas = 1 ∧ ∃ f, fs.find? (fun f => 0 < mix.count f.resource) = some f ∧
      w.resource = f.resource := by
  induction fs with
  | nil => cases h
  | cons f fs ih =>
    rw [RayClusters.workerGroups, List.mem_append, List.mem_append] at h
    rcases h with (h | h) | h
    · obtain ⟨rfl, hne⟩ := mem_workerGroup h
      have hpos : 0 < mix.count f.resource := by omega
      exact ⟨by simp only; omega, f, by simp [hpos], rfl⟩
    · rw [(mem_workerGroup h).1] at hw
      cases hw
    · by_cases hpos : 0 < mix.count f.resource
      · have hzero : 1 - mix.count f.resource = 0 := by omega
        rw [hzero] at h
        rw [preemptible_of_mem h] at hw
        cases hw
      · have hone : 1 - mix.count f.resource = 1 := by omega
        rw [hone] at h
        rw [List.find?_cons_of_neg (by simpa using hpos)]
        exact ih h

theorem nodup_workerGroups (fs : List Flavor) (hn : (fs.map Flavor.resource).Nodup) (kept : ℕ) :
    ((RayClusters.workerGroups p mix fs kept).map fun w => (w.resource, w.preemptible)).Nodup := by
  induction fs generalizing kept with
  | nil => exact List.nodup_nil
  | cons f fs ih =>
    rw [List.map_cons, List.nodup_cons] at hn
    have hone : ∀ (n : ℕ) (pre : Bool),
        ((RayClusters.workerGroup f.resource p n pre).map fun w => (w.resource, w.preemptible)).Nodup ∧
        ∀ k ∈ (RayClusters.workerGroup f.resource p n pre).map (fun w => (w.resource, w.preemptible)),
          k = (f.resource, pre) := by
      intro n pre
      unfold RayClusters.workerGroup
      by_cases h0 : n = 0
      · simp [h0]
      · simp [h0]
    rw [RayClusters.workerGroups, List.map_append, List.map_append, List.nodup_append,
      List.nodup_append]
    refine ⟨⟨(hone _ _).1, (hone _ _).1, fun a ha b hb heq => ?_⟩, ih hn.2 _, fun a ha b hb heq => ?_⟩
    · rw [(hone _ _).2 a ha, (hone _ _).2 b hb] at heq
      cases heq
    · obtain ⟨w, hw, rfl⟩ := List.mem_map.mp hb
      have hres : a.1 = f.resource := by
        rcases List.mem_append.mp ha with ha | ha
        · rw [(hone _ _).2 a ha]
        · rw [(hone _ _).2 a ha]
      rw [heq] at hres
      exact hn.1 (hres ▸ resource_of_mem hw)

end Groups

/-- Of the flavors only the group's own is left in the amounts. -/
theorem get?_withGpus (f : Flavor) (perWorker : ℕ) (amounts : Amounts) {g : Flavor}
    (hg : g ∈ flavors) :
    (withGpus f perWorker amounts).get? g.resource =
      if g.resource = f.resource then some (.int perWorker) else none := by
  let hits : Flavor → String → Bool := fun other k => k = other.resource
  have hany : (flavors.any fun other => hits other g.resource) = true :=
    List.any_eq_true.mpr ⟨g, hg, by simp [hits]⟩
  have hdrop : (flavors.foldl (fun amounts other => Dict.pop amounts other.resource)
      amounts).get? g.resource = none := by
    rw [@Dict.get?_foldl_drop _ _ _ _ _ hits (fun d x k => by simp [hits, Dict.get?_pop]), hany,
      if_pos rfl]
  rw [withGpus, Dict.get?_set, hdrop]

/-- What a table holds of a resource, nothing where it has no entry. -/
def heldOf (held : Dict String ℤ) (r : String) : ℤ := (held.get? r).getD 0

theorem heldOf_set (held : Dict String ℤ) (k r : String) (v : ℤ) :
    heldOf (held.set k v) r = if r = k then v else heldOf held r := by
  unfold heldOf
  rw [Dict.get?_set]
  split_ifs <;> rfl

theorem foldlM_addLimit_of_none {replicas : Option Json} {limits : Amounts} {fs : List Flavor}
    (h : ∀ g ∈ fs, limits.get? g.resource = none) (held : Dict String ℤ) :
    fs.foldlM (addLimit replicas limits) held = .ok held := by
  induction fs with
  | nil => rfl
  | cons g fs ih =>
    have hg : addLimit replicas limits held g = .ok held := by
      rw [addLimit, h g (by simp)]
    rw [List.foldlM_cons, hg]
    exact ih fun k hk => h k (by simp [hk])

/-- The loop over the flavors adds the group's own, once. -/
theorem foldlM_addLimit {limits : Amounts} {f : Flavor} {n p : ℕ} {fs : List Flavor}
    (hn : (fs.map Flavor.resource).Nodup) (hf : f ∈ fs)
    (hlimits : ∀ g ∈ fs, limits.get? g.resource =
      if g.resource = f.resource then some (.int p) else none) (held : Dict String ℤ) :
    fs.foldlM (addLimit (some (.int n)) limits) held =
      .ok (held.set f.resource (heldOf held f.resource + n * p)) := by
  induction fs with
  | nil => cases hf
  | cons g fs ih =>
    rw [List.map_cons, List.nodup_cons] at hn
    have hg := hlimits g (by simp)
    rw [List.foldlM_cons]
    rcases List.mem_cons.mp hf with rfl | hf
    · rw [if_pos rfl] at hg
      have hstep : addLimit (some (.int n)) limits held f =
          .ok (held.set f.resource (heldOf held f.resource + n * p)) := by
        rw [addLimit, hg]
        rfl
      rw [hstep]
      refine foldlM_addLimit_of_none (fun k hk => ?_) _
      rw [hlimits k (by simp [hk]), if_neg]
      exact fun heq => hn.1 (heq ▸ List.mem_map_of_mem (f := Flavor.resource) hk)
    · have hne : g.resource ≠ f.resource :=
        fun heq => hn.1 (heq ▸ List.mem_map_of_mem (f := Flavor.resource) hf)
      rw [if_neg hne] at hg
      have hstep : addLimit (some (.int n)) limits held g = .ok held := by rw [addLimit, hg]
      rw [hstep]
      exact ih hn.2 hf fun k hk => hlimits k (by simp [hk])

section Held
variable (template : Group) {c : Container} {limits : Amounts}
  (hc : template.pod.containers = [c]) (hl : c.resources.get? "limits" = some limits)
include hc hl

theorem addGroup_render {w : WorkerGroup} {f : Flavor} (hf : f ∈ flavors)
    (hw : w.resource = f.resource) (held : Dict String ℤ) :
    addGroup held (render template w) =
      .ok (held.set w.resource (heldOf held w.resource + w.replicas * w.perWorker)) := by
  rw [render_eq hf hw, hw]
  simp only [addGroup, workerGroup, hc, List.map_cons, List.map_nil, List.foldlM_cons,
    List.foldlM_nil, addContainer, Dict.get?_map, hl, Option.map_some, Option.getD_some]
  rw [foldlM_addLimit flavors_nodup hf fun g hg => get?_withGpus f w.perWorker limits hg]
  rfl

theorem foldlM_addGroup {ws : List WorkerGroup}
    (hws : ∀ w ∈ ws, w.resource ∈ flavors.map Flavor.resource) (held : Dict String ℤ) :
    ∃ held', (ws.map (render template)).foldlM addGroup held = .ok held' ∧
      ∀ r, heldOf held' r = heldOf held r + groupGpus ws r := by
  induction ws generalizing held with
  | nil => exact ⟨held, rfl, fun r => by simp [groupGpus]⟩
  | cons w ws ih =>
    obtain ⟨f, hf, hw⟩ := List.mem_map.mp (hws w (by simp))
    obtain ⟨held', hfold, hsum⟩ := ih (fun v hv => hws v (by simp [hv]))
      (held.set w.resource (heldOf held w.resource + w.replicas * w.perWorker))
    refine ⟨held', ?_, fun r => ?_⟩
    · rw [List.map_cons, List.foldlM_cons, addGroup_render template hc hl hf hw.symm]
      exact hfold
    · have hcons : groupGpus (w :: ws) r =
          (if w.resource = r then w.replicas * w.perWorker else 0) + groupGpus ws r := rfl
      rw [hsum, heldOf_set, hcons]
      by_cases hr : w.resource = r
      · rw [if_pos hr.symm, if_pos hr, hr]
        push_cast
        ring
      · rw [if_neg (Ne.symm hr), if_neg hr, Nat.zero_add]

end Held

/-- The workers of a group, as its replicas say. -/
def Group.workers (g : Group) : ℤ :=
  match g.replicas with
  | some (.int n) => n
  | _ => 0

def Group.isOf (f : Flavor) (g : Group) : Bool :=
  g.groupName = some (RayClusterSpecs.groupName f false) ||
    g.groupName = some (RayClusterSpecs.groupName f true)

/-- A group whose workers are not preemptible. -/
def Group.firm (g : Group) : Bool :=
  flavors.any fun f => g.groupName = some (RayClusterSpecs.groupName f false)

/-- Every `PATH` has a value the environment's directory can be put in front of. -/
def Pod.Pathed (pod : Pod) : Prop :=
  ∀ c ∈ pod.containers, ∀ v ∈ c.env.getD [], ∀ source, v ≠ .sourced "PATH" source

/-- What a cluster is to be like that was admitted with a mix. -/
structure Built (template : Manifest) (group : Group) (user : User) (shape : Shape) (p : ℕ)
    (mix : Gpus) (cluster : Manifest) : Prop where
  held : ∃ held, heldGpus cluster = .ok held ∧
    ∀ r, r ∈ flavors.map Flavor.resource ∨ mix.count r = 0 →
      heldOf held r = (mix.count r * p : ℕ) ∧
      ∀ grants name now, ∃ grant, (granting grants name p mix now).get? name = some grant ∧
        heldOf held r = grant.gpus.count r
  replicas : ∀ f ∈ flavors,
    ((cluster.spec.workerGroupSpecs.filter (Group.isOf f)).map Group.workers).sum =
      mix.count f.resource
  firm : (∃ f ∈ flavors, 0 < mix.count f.resource) →
    ((cluster.spec.workerGroupSpecs.filter Group.firm).map Group.workers).sum = 1
  first : ∀ g ∈ cluster.spec.workerGroupSpecs, g.firm = true →
    ∃ f, flavors.find? (fun f => 0 < mix.count f.resource) = some f ∧ g.isOf f = true
  priority : ∀ g ∈ cluster.spec.workerGroupSpecs, g.pod.priorityClassName =
    if g.firm then group.pod.priorityClassName else some preemptiblePriorityClass
  names : (cluster.spec.workerGroupSpecs.map Group.groupName).Nodup
  shaped : shapeOf cluster = { shape with site := "purdue" }
  job : ∀ name, ∃ job, buildJob template user shape mix name = some job ∧
    job.rayClusterSpec = { cluster.spec with authOptions := job.rayClusterSpec.authOptions } ∧
    ∀ k, job.rayClusterSpec.authOptions.get? k =
      if k = "secretName" then some (.str name) else cluster.spec.authOptions.get? k

theorem isSome_mapM {α β : Type} (f : α → Option β) (items : List α) :
    (items.mapM f).isSome ↔ ∀ x ∈ items, (f x).isSome := by
  induction items with
  | nil => simp
  | cons x items ih =>
    rw [List.mapM_cons]
    cases hx : f x with
    | none => simp [hx]
    | some y =>
      cases hrest : items.mapM f with
      | none =>
        rw [hrest] at ih
        simpa [hx] using ih
      | some ys =>
        rw [hrest] at ih
        simpa [hx] using ih

theorem isSome_pathed {env : String} {v : Variable} :
    (v.pathed env).isSome ↔ ∀ source, v ≠ .sourced "PATH" source := by
  cases v with
  | plain name value => simp [Variable.pathed]
  | sourced name source =>
    by_cases h : name = "PATH"
    · simp [Variable.pathed, h]
    · simp [Variable.pathed, h]

theorem isSome_entered (user : User) (shape : Shape) (pod : Pod) :
    (pod.entered user shape).isSome ↔ pod.Pathed := by
  have hcontainer : ∀ c : Container, (c.entered user shape).isSome ↔
      ∀ v ∈ c.env.getD [], ∀ source, v ≠ .sourced "PATH" source := by
    intro c
    have hvars := isSome_mapM (Variable.pathed shape.env) (c.env.getD [])
    simp only [isSome_pathed] at hvars
    rw [← hvars, Container.entered]
    cases (c.env.getD []).mapM (Variable.pathed shape.env) <;> rfl
  have hpod := isSome_mapM (Container.entered user shape) pod.containers
  simp only [hcontainer] at hpod
  rw [Pod.Pathed, ← hpod, Pod.entered]
  cases pod.containers.mapM (Container.entered user shape) <;> rfl

/-- Entering the user and the shape leaves the pod's resources and priority as they are. -/
theorem entered_eq {user : User} {shape : Shape} {pod pod' : Pod} {c : Container}
    (hc : pod.containers = [c]) (h : pod.entered user shape = some pod') :
    pod'.priorityClassName = pod.priorityClassName ∧
      ∃ c', pod'.containers = [c'] ∧ c'.resources = c.resources := by
  simp only [Pod.entered, hc, List.mapM_cons, List.mapM_nil, Container.entered] at h
  cases hvars : (c.env.getD []).mapM (Variable.pathed shape.env) with
  | none =>
    rw [hvars] at h
    cases h
  | some vars =>
    rw [hvars] at h
    cases h
    exact ⟨rfl, _, rfl, rfl⟩

theorem clusterShape_overlay (d : Dict String String) (shape : Shape) :
    clusterShape (Dict.overlay d (annotate shape)) = { shape with site := "purdue" } := by
  have hget : ∀ k, (annotate shape).get? k ≠ none →
      (Dict.overlay d (annotate shape)).get? k = (annotate shape).get? k := by
    intro k hk
    rw [Dict.get?_overlay]
    cases h : (annotate shape).get? k with
    | none => exact absurd h hk
    | some v => rfl
  rw [← clusterShape_annotate { shape with site := "purdue" } rfl]
  simp only [clusterShape, setting]
  repeat rw [hget _ (by simp [annotate, Dict.get?_cons])]
  rfl

section Render
variable {template : Group} {w : WorkerGroup} {f : Flavor} (hf : f ∈ flavors)
  (hw : w.resource = f.resource)
include hf hw

theorem render_groupName :
    (render template w).groupName = some (groupName f w.preemptible) := by
  rw [render_eq hf hw]
  rfl

theorem render_workers : (render template w).workers = w.replicas := by
  rw [render_eq hf hw]
  rfl

theorem render_isOf {g : Flavor} (hg : g ∈ flavors) :
    (render template w).isOf g = decide (w.resource = g.resource) := by
  rw [Group.isOf, render_groupName hf hw, Bool.eq_iff_iff, hw]
  simp only [Bool.or_eq_true, decide_eq_true_eq, Option.some.injEq]
  constructor
  · rintro (h | h)
    · rw [(groupName_inj f hf g hg _ _ h).1]
    · rw [(groupName_inj f hf g hg _ _ h).1]
  · intro h
    rw [resource_inj f hf g hg h]
    cases w.preemptible with
    | false => exact .inl rfl
    | true => exact .inr rfl

theorem render_firm : (render template w).firm = !w.preemptible := by
  rw [Group.firm, render_groupName hf hw, Bool.eq_iff_iff]
  simp only [List.any_eq_true, decide_eq_true_eq, Option.some.injEq, Bool.not_eq_true']
  constructor
  · rintro ⟨g, hg, h⟩
    exact (groupName_inj f hf g hg _ _ h).2
  · intro h
    exact ⟨f, hf, by rw [h]⟩

end Render

/-- Sums over the written-out groups are sums over the groups of the model. -/
theorem sum_render {template : Group} {ws : List WorkerGroup}
    (hws : ∀ w ∈ ws, w.resource ∈ flavors.map Flavor.resource) {q : Group → Bool}
    (q' : WorkerGroup → Bool) (hq : ∀ w ∈ ws, q (render template w) = q' w) :
    (((ws.map (render template)).filter q).map Group.workers).sum =
      (((ws.filter q').map WorkerGroup.replicas).sum : ℕ) := by
  induction ws with
  | nil => rfl
  | cons w ws ih =>
    obtain ⟨f, hf, hw⟩ := List.mem_map.mp (hws w (by simp))
    have hrest := ih (fun v hv => hws v (by simp [hv])) fun v hv => hq v (by simp [hv])
    rw [List.map_cons, List.filter_cons, List.filter_cons, hq w (by simp)]
    split_ifs
    · rw [List.map_cons, List.sum_cons, List.map_cons, List.sum_cons, hrest,
        render_workers hf hw.symm]
      push_cast
      ring
    · exact hrest

section Build
variable {template : Manifest} {group : Group} {c : Container} {limits : Amounts} {user : User}
  {shape : Shape} {p : ℕ} {mix : Gpus}
  (hgroup : template.spec.workerGroupSpecs = [group]) (hp : int? shape.perWorker = some p)
include hgroup hp

theorem isSome_buildCluster : (buildCluster template user shape mix).isSome ↔
    template.spec.head.Pathed ∧ group.pod.Pathed := by
  have hsized : ({ group.pod with
      containers := group.pod.containers.map (Container.sized shape) } : Pod).Pathed ↔
        group.pod.Pathed := by
    simp only [Pod.Pathed, List.forall_mem_map]
    rfl
  rw [← isSome_entered user shape, ← hsized, ← isSome_entered user shape, buildCluster]
  simp only [hgroup, workerGroups_eq hp mix fun f hf => hf]
  cases template.spec.head.entered user shape with
  | none => simp
  | some head =>
    cases Pod.entered user shape { group.pod with
      containers := group.pod.containers.map (Container.sized shape) } with
    | none => simp
    | some pod => simp

theorem buildCluster_eq_some (hc : group.pod.containers = [c])
    (hl : c.resources.get? "limits" = some limits) {cluster : Manifest}
    (h : buildCluster template user shape mix = some cluster) :
    ∃ (pod : Pod) (c' : Container) (limits' : Amounts), pod.containers = [c'] ∧
      c'.resources.get? "limits" = some limits' ∧
      pod.priorityClassName = group.pod.priorityClassName ∧
      cluster.spec.workerGroupSpecs =
        (RayClusters.workerGroups p mix flavors 1).map (render { group with pod := pod }) ∧
      cluster.annotations =
        some (Dict.overlay (template.annotations.getD []) (annotate shape)) := by
  simp only [buildCluster, hgroup, workerGroups_eq hp mix fun f hf => hf] at h
  cases hhead : template.spec.head.entered user shape with
  | none =>
    rw [hhead] at h
    cases h
  | some head =>
    cases hpod : Pod.entered user shape { group.pod with
      containers := group.pod.containers.map (Container.sized shape) } with
    | none =>
      rw [hhead, hpod] at h
      cases h
    | some pod =>
      rw [hhead, hpod] at h
      obtain ⟨hclass, c', hc', hres⟩ := entered_eq (c := c.sized shape) (by simp [hc]) hpod
      have hl' : c'.resources.get? "limits" = some (Dict.overlay limits
          [("cpu", .str shape.cpus), ("memory", .str (shape.ram ++ "Gi"))]) := by
        rw [hres]
        have hmap := Dict.get?_map c.resources (fun amounts => Dict.overlay amounts
          [("cpu", .str shape.cpus), ("memory", .str (shape.ram ++ "Gi"))]) "limits"
        rwa [hl] at hmap
      cases h
      exact ⟨pod, c', _, hc', hl', hclass, rfl, rfl⟩

end Build

/-- The groups of a mix as they stand in a cluster. -/
def rendered (template : Group) (p : ℕ) (mix : Gpus) : List Group :=
  (RayClusters.workerGroups p mix flavors 1).map (render template)

section Rendered
variable {template : Group} {p : ℕ} {mix : Gpus}

theorem mem_rendered {g : Group} (h : g ∈ rendered template p mix) :
    ∃ w ∈ RayClusters.workerGroups p mix flavors 1, ∃ f ∈ flavors, w.resource = f.resource ∧
      g = render template w := by
  obtain ⟨w, hw, rfl⟩ := List.mem_map.mp h
  obtain ⟨f, hf, hres⟩ := List.mem_map.mp (resource_of_mem hw)
  exact ⟨w, hw, f, hf, hres.symm, rfl⟩

theorem heldGpus_rendered {c : Container} {limits : Amounts} (hc : template.pod.containers = [c])
    (hl : c.resources.get? "limits" = some limits) {cluster : Manifest}
    (hspecs : cluster.spec.workerGroupSpecs = rendered template p mix) :
    ∃ held, heldGpus cluster = .ok held ∧
      ∀ r, r ∈ flavors.map Flavor.resource ∨ mix.count r = 0 →
        heldOf held r = (mix.count r * p : ℕ) := by
  have hws : ∀ w ∈ RayClusters.workerGroups p mix flavors 1,
      w.resource ∈ flavors.map Flavor.resource := fun w hw => resource_of_mem hw
  obtain ⟨held, hheld, hcount⟩ := foldlM_addGroup template hc hl hws []
  refine ⟨held, by rw [heldGpus, hspecs, rendered, hheld], fun r hr => ?_⟩
  rw [hcount, groupGpus_workerGroups _ _ _ _ flavors_nodup]
  rcases hr with hr | hr
  · rw [if_pos hr]
    exact zero_add _
  · rw [hr, Nat.zero_mul, ite_self]
    rfl

theorem sum_rendered_isOf {f : Flavor} (hf : f ∈ flavors) :
    (((rendered template p mix).filter (Group.isOf f)).map Group.workers).sum =
      mix.count f.resource := by
  rw [rendered, sum_render (fun w hw => resource_of_mem hw) (fun w => w.resource = f.resource)
    fun w hw => ?_, sum_replicas_of flavors flavors_nodup 1 hf]
  obtain ⟨g, hg, hres⟩ := List.mem_map.mp (resource_of_mem hw)
  exact render_isOf hg hres.symm hf

theorem sum_rendered_firm (h : ∃ f ∈ flavors, 0 < mix.count f.resource) :
    (((rendered template p mix).filter Group.firm).map Group.workers).sum = 1 := by
  obtain ⟨f, hf, hpos⟩ := h
  rw [rendered, sum_render (fun w hw => resource_of_mem hw) (fun w => !w.preemptible)
    fun w hw => ?_, sum_replicas_firm]
  · have hle := List.single_le_sum (fun _ _ => Nat.zero_le _) _
      (List.mem_map_of_mem (f := fun f : Flavor => mix.count f.resource) hf)
    rw [Nat.min_eq_left (by omega)]
    rfl
  · obtain ⟨g, hg, hres⟩ := List.mem_map.mp (resource_of_mem hw)
    exact render_firm hg hres.symm

theorem rendered_firm_first {g : Group} (hg : g ∈ rendered template p mix) (hfirm : g.firm = true) :
    ∃ f, flavors.find? (fun f => 0 < mix.count f.resource) = some f ∧ g.isOf f = true := by
  obtain ⟨w, hw, f, hf, hres, rfl⟩ := mem_rendered hg
  rw [render_firm hf hres, Bool.not_eq_true'] at hfirm
  obtain ⟨-, f', hfind, hf'⟩ := firm_first hw hfirm
  refine ⟨f', hfind, ?_⟩
  rw [render_isOf hf hres (List.mem_of_find?_eq_some hfind), hf', decide_eq_true rfl]

theorem rendered_priority {g : Group} (hg : g ∈ rendered template p mix) :
    g.pod.priorityClassName =
      if g.firm then template.pod.priorityClassName else some preemptiblePriorityClass := by
  obtain ⟨w, hw, f, hf, hres, rfl⟩ := mem_rendered hg
  rw [render_firm hf hres, render_eq hf hres]
  cases hpre : w.preemptible with
  | false => simp [workerGroup]
  | true => simp [workerGroup]

theorem nodup_rendered : ((rendered template p mix).map Group.groupName).Nodup := by
  rw [rendered, List.map_map, List.Nodup, List.pairwise_map]
  have hkeys : ((RayClusters.workerGroups p mix flavors 1).map fun w =>
      (w.resource, w.preemptible)).Nodup := nodup_workerGroups flavors flavors_nodup 1
  rw [List.Nodup, List.pairwise_map] at hkeys
  refine hkeys.imp_of_mem fun hv hw hne heq => hne ?_
  obtain ⟨f, hf, hres⟩ := List.mem_map.mp (resource_of_mem hv)
  obtain ⟨g, hg, hres'⟩ := List.mem_map.mp (resource_of_mem hw)
  rw [Function.comp, Function.comp, render_groupName hf hres.symm,
    render_groupName hg hres'.symm, Option.some.injEq] at heq
  obtain ⟨rfl, hpre⟩ := groupName_inj f hf g hg _ _ heq
  rw [← hres, ← hres', hpre]

end Rendered

/-- What a cluster is built as holds what it was admitted with. -/
theorem buildCluster_built {template : Manifest} {group : Group} {c : Container}
    {limits : Amounts} (hgroup : template.spec.workerGroupSpecs = [group])
    (hc : group.pod.containers = [c]) (hl : c.resources.get? "limits" = some limits)
    (user : User) {shape : Shape} {p : ℕ} (hp : int? shape.perWorker = some p) (mix : Gpus) :
    ((buildCluster template user shape mix).isSome ↔
      template.spec.head.Pathed ∧ group.pod.Pathed) ∧
    ∀ cluster, buildCluster template user shape mix = some cluster →
      Built template group user shape p mix cluster := by
  refine ⟨isSome_buildCluster hgroup hp, fun cluster h => ?_⟩
  obtain ⟨pod, c', limits', hc', hl', hclass, hspecs, hannotations⟩ :=
    buildCluster_eq_some hgroup hp hc hl h
  change _ = rendered { group with pod := pod } p mix at hspecs
  constructor
  case held =>
    obtain ⟨held, hheld, hcount⟩ := heldGpus_rendered hc' hl' hspecs
    refine ⟨held, hheld, fun r hr => ⟨hcount r hr, fun grants name now => ?_⟩⟩
    refine ⟨_, Dict.get?_set_self _ _ _, ?_⟩
    rw [hcount r hr, count_scaled]
  case replicas =>
    intro f hf
    rw [hspecs, sum_rendered_isOf hf]
  case firm =>
    intro hpos
    rw [hspecs, sum_rendered_firm hpos]
  case first =>
    intro g hg hfirm
    exact rendered_firm_first (hspecs ▸ hg) hfirm
  case priority =>
    intro g hg
    rw [rendered_priority (hspecs ▸ hg), hclass]
  case names =>
    rw [hspecs]
    exact nodup_rendered
  case shaped =>
    rw [shapeOf, hannotations]
    exact clusterShape_overlay _ shape
  case job =>
    intro name
    refine ⟨_, by rw [buildJob, h]; rfl, rfl, fun k => ?_⟩
    exact Dict.get?_set _ _ _ _

/-- A template of the form of `raycluster.yaml`. -/
def smallTemplate : Manifest where
  name := "ray-train-template"
  labels := none
  annotations := none
  spec :=
    { authOptions := [("mode", .str "token"), ("secretName", .str "ray-train-template")]
      head := ⟨none, none, [⟨some [.plain "PATH" "/usr/bin"], [], []⟩], []⟩
      workerGroupSpecs := [⟨some "gpu", none, none, none, ⟨none, none,
        [⟨some [.plain "PATH" "/usr/bin"], [("limits", [("nvidia.com/gpu", .int 1)]),
          ("requests", [("nvidia.com/gpu", .int 1)])], []⟩], []⟩, []⟩]
      rest := [] }
  rest := []

def userA : User where
  name := "user-a"
  account := "user-a"
  uid := 6001
  gid := 100

def twoShape : Shape := ⟨"/work/env", "2", "5", "8", "32", "1", "1", "purdue"⟩

theorem buildCluster_built_two : ∃ cluster group,
    buildCluster smallTemplate userA twoShape [("nvidia.com/gpu", 2)] = some cluster ∧
    Built smallTemplate group userA twoShape 1 [("nvidia.com/gpu", 2)] cluster := by
  obtain ⟨hsome, hbuilt⟩ := @buildCluster_built smallTemplate _ _ _ rfl rfl rfl userA
    twoShape 1 (by decide +kernel) [("nvidia.com/gpu", 2)]
  have hpaths : (buildCluster smallTemplate userA twoShape [("nvidia.com/gpu", 2)]).isSome :=
    hsome.mpr ⟨by simp [smallTemplate, Pod.Pathed], by simp [Pod.Pathed]⟩
  obtain ⟨cluster, hcluster⟩ := Option.isSome_iff_exists.mp hpaths
  exact ⟨cluster, _, hcluster, hbuilt cluster hcluster⟩

end PurdueAF.RayClusterSpecs

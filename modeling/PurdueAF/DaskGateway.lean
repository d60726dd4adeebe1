import PurdueAF.Machine
import Mathlib.Data.Nat.Basic
import Mathlib.Order.Basic

/-!
# The cap on a user's Dask clusters

`_kube_start_cluster_limited` counts the user's clusters and then has the gateway's own
`start_cluster` create one, with awaits of both in which the other requests go on.
-/
namespace PurdueAF.DaskGateway
open Machine

inductive ClusterStatus
  | pending | running | stopping | stopped | failed
  deriving DecidableEq, Repr

structure Cluster where
  username : String
  status : ClusterStatus
  deriving DecidableEq, Repr

def maxActiveClustersPerUser : ℕ := 1

def busyStatuses : List ClusterStatus := [.pending, .running, .stopping]

/-- `KubeBackend.list_clusters` -/
def listClusters (clusters : List Cluster) (username : String) (statuses : List ClusterStatus) :
    List Cluster :=
  clusters.filter fun c => c.username = username && c.status ∈ statuses

def refusal (cap : ℕ) : String :=
  s!"You may only have {cap} active Dask Gateway cluster(s) at a time. " ++
    "Stop your existing cluster or wait for it to finish shutting down before creating another."

inductive Pc
  | called
  /-- `list_clusters` has read the clusters, and the request has not yet gone on from it. -/
  | listed (busy : List Cluster)
  /-- In the wrapped `start_cluster`, before the cluster is created. -/
  | starting
  | started
  /-- `PublicException` -/
  | refused (message : String)
  /-- The wrapped `start_cluster` raised. -/
  | raised
  deriving DecidableEq, Repr

structure Request where
  user : String
  pc : Pc
  deriving DecidableEq, Repr

structure Sys where
  clusters : List Cluster
  requests : List Request

def start : Sys := ⟨[], []⟩

inductive Action
  | request (user : String)
  | list (i : ℕ)
  | check (i : ℕ)
  | create (i : ℕ) (ok : Bool)
  /-- The controller or a stop moves a cluster on. -/
  | turn (k : ℕ) (status : ClusterStatus)

/-- What may become of a cluster: none that has ended is active again. -/
def ClusterStatus.next : ClusterStatus → List ClusterStatus
  | .pending => [.running, .stopping, .stopped, .failed]
  | .running => [.stopping, .stopped, .failed]
  | .stopping => [.stopped, .failed]
  | .stopped | .failed => []

def checked (cap : ℕ) (busy : List Cluster) : Pc :=
  if cap ≤ busy.length then .refused (refusal cap) else .starting

def step (cap : ℕ) (s : Sys) : Action → Option Sys
  | .request user => some { s with requests := s.requests ++ [⟨user, .called⟩] }
  | .list i =>
    match s.requests[i]? with
    | some ⟨user, .called⟩ =>
      -- A cap of 0 is none.
      let pc := if cap ≠ 0 then .listed (listClusters s.clusters user busyStatuses) else .starting
      some { s with requests := s.requests.set i ⟨user, pc⟩ }
    | _ => none
  | .check i =>
    match s.requests[i]? with
    | some ⟨user, .listed busy⟩ =>
      some { s with requests := s.requests.set i ⟨user, checked cap busy⟩ }
    | _ => none
  | .create i ok =>
    match s.requests[i]? with
    | some ⟨user, .starting⟩ =>
      if ok then
        some ⟨s.clusters ++ [⟨user, .pending⟩], s.requests.set i ⟨user, .started⟩⟩
      else some { s with requests := s.requests.set i ⟨user, .raised⟩ }
    | _ => none
  | .turn k status =>
    match s.clusters[k]? with
    | some c =>
      if status ∈ c.status.next then
        some { s with clusters := s.clusters.set k { c with status := status } }
      else none
    | none => none

/-- The user's clusters that are pending, running or stopping. -/
def active (s : Sys) (user : String) : ℕ := (listClusters s.clusters user busyStatuses).length

def Pc.inFlight : Pc → Bool
  | .listed _ | .starting => true
  | _ => false

/-- No request lists the clusters while another of its user has listed them and not yet had its
cluster created. -/
def InTurn (s : Sys) : Action → Prop
  | .list i => ∀ r ∈ s.requests[i]?, ∀ q ∈ s.requests, q.pc.inFlight = true → q.user ≠ r.user
  | _ => True

instance (s : Sys) : ∀ a, Decidable (InTurn s a)
  | .list _ => inferInstanceAs (Decidable (∀ r ∈ s.requests[_]?, ∀ q ∈ s.requests, _))
  | .request _ | .check _ | .create _ _ | .turn _ _ => .isTrue trivial

/-- The room that a request in flight counts on is there. -/
def Stands (cap : ℕ) (s : Sys) (r : Request) : Prop :=
  match r.pc with
  | .listed busy => active s r.user ≤ busy.length
  | .starting => active s r.user < cap
  | _ => True

structure Sound (cap : ℕ) (s : Sys) : Prop where
  capped : ∀ user, active s user ≤ cap
  exclusive : Exclusive (·.pc.inFlight) (·.user) s.requests
  stands : ∀ r ∈ s.requests, Stands cap s r

section Steps
variable {cap : ℕ} {s s' : Sys} {i : ℕ} {r : Request} {a : Action}

theorem stands_of_le {q : Request} (hle : q.pc.inFlight = true → active s' q.user ≤ active s q.user)
    (h : Stands cap s q) : Stands cap s' q := by
  unfold Stands at h ⊢
  cases hpc : q.pc with
  | listed busy =>
    rw [hpc] at h
    exact (hle (by rw [hpc]; rfl)).trans h
  | starting =>
    rw [hpc] at h
    exact (hle (by rw [hpc]; rfl)).trans_lt h
  | called => trivial
  | started => trivial
  | refused message => trivial
  | raised => trivial

/-- A request moves on and the clusters stay. -/
theorem sound_set (hi : s.requests[i]? = some r) {pc : Pc}
    (halone : pc.inFlight = true → Alone (·.pc.inFlight) (·.user) s.requests i r)
    (hstands : Stands cap s ⟨r.user, pc⟩) (h : Sound cap s) :
    Sound cap { s with requests := s.requests.set i ⟨r.user, pc⟩ } := by
  refine ⟨h.capped, h.exclusive.set hi rfl halone, ?_⟩
  intro q hq
  rcases List.mem_or_eq_of_mem_set hq with hq | rfl
  · exact h.stands q hq
  · exact hstands

theorem active_append (c : Cluster) (user : String) (requests : List Request) :
    active ⟨s.clusters ++ [c], requests⟩ user =
      active s user + if c.username = user ∧ c.status ∈ busyStatuses then 1 else 0 := by
  unfold active listClusters
  rw [List.filter_append, List.length_append]
  congr 1
  by_cases hc : c.username = user ∧ c.status ∈ busyStatuses
  · simp [hc]
  · rw [if_neg hc]
    simpa using hc

/-- The one request of the user that has listed its clusters creates one more. -/
theorem sound_create (hi : s.requests[i]? = some r) (hpc : r.pc = .starting) (h : Sound cap s) :
    Sound cap ⟨s.clusters ++ [⟨r.user, .pending⟩], s.requests.set i ⟨r.user, .started⟩⟩ := by
  have halone := h.exclusive.alone hi (by rw [hpc]; rfl)
  have hroom := h.stands r (List.mem_of_getElem? hi)
  simp only [Stands, hpc] at hroom
  refine ⟨?_, h.exclusive.set hi rfl (by simp [Pc.inFlight]), ?_⟩
  · intro user
    have hold := h.capped user
    rw [active_append]
    split_ifs with hc
    · obtain ⟨rfl, -⟩ := hc
      exact hroom
    · exact hold
  · intro q hq
    obtain ⟨j, hj⟩ := List.mem_iff_getElem?.mp hq
    rcases getElem?_set_cases hi hj with ⟨-, rfl⟩ | ⟨hne, hj⟩
    · trivial
    · refine stands_of_le ?_ (h.stands q (List.mem_of_getElem? hj))
      intro hinst
      have hother : r.user ≠ q.user := (halone j q hne hj hinst).symm
      rw [active_append, if_neg fun hc => hother hc.1]
      exact le_rfl

theorem busy_of_next {status status' : ClusterStatus} (h : status' ∈ status.next) :
    status ∈ busyStatuses := by
  cases status <;> simp_all [ClusterStatus.next, busyStatuses]

theorem active_turn_le {k : ℕ} {c : Cluster} (hk : s.clusters[k]? = some c) {status : ClusterStatus}
    (hnext : status ∈ c.status.next) (user : String) :
    active { s with clusters := s.clusters.set k { c with status := status } } user ≤
      active s user := by
  obtain ⟨front, back, hsplit, -, hset⟩ := split_set hk
  have hbusy := busy_of_next hnext
  unfold active listClusters
  dsimp only
  rw [hset, hsplit]
  simp only [List.filter_append, List.filter_cons, List.length_append]
  by_cases huser : c.username = user
  · simp only [huser, hbusy, decide_true, Bool.and_self, if_true, List.length_cons]
    split_ifs <;> simp
  · simp [huser]

theorem sound_turn {k : ℕ} {c : Cluster} (hk : s.clusters[k]? = some c) {status : ClusterStatus}
    (hnext : status ∈ c.status.next) (h : Sound cap s) :
    Sound cap { s with clusters := s.clusters.set k { c with status := status } } := by
  have hle := active_turn_le hk hnext
  refine ⟨fun user => (hle user).trans (h.capped user), h.exclusive, ?_⟩
  intro q hq
  exact stands_of_le (fun _ => hle q.user) (h.stands q hq)

theorem sound_request (user : String) (h : Sound cap s) :
    Sound cap { s with requests := s.requests ++ [⟨user, .called⟩] } := by
  refine ⟨h.capped, h.exclusive.append_idle rfl, ?_⟩
  intro q hq
  rcases List.mem_append.mp hq with hq | hq
  · exact h.stands q hq
  · obtain rfl := List.mem_singleton.mp hq
    trivial

theorem stands_checked (busy : List Cluster) (user : String)
    (h : active s user ≤ busy.length) : Stands cap s ⟨user, checked cap busy⟩ := by
  unfold checked
  split_ifs with hfull
  · trivial
  · exact h.trans_lt (Nat.lt_of_not_le hfull)

theorem sound_start (cap : ℕ) : Sound cap start := by
  refine ⟨fun _ => Nat.zero_le cap, exclusive_nil _ _, ?_⟩
  intro r hr
  cases hr

theorem sound_step (hcap : cap ≠ 0) (h : Sound cap s) (hc : InTurn s a)
    (hs : step cap s a = some s') : Sound cap s' := by
  cases a with
  | request user =>
    obtain rfl := Option.some.inj hs
    exact sound_request user h
  | list i =>
    simp only [step] at hs
    split at hs
    · next user hi =>
      rw [if_pos hcap] at hs
      obtain rfl := Option.some.inj hs
      refine sound_set hi (fun _ => ?_) (le_refl _) h
      intro j q _ hq hinst
      exact hc _ hi q (List.mem_of_getElem? hq) hinst
    · cases hs
  | check i =>
    simp only [step] at hs
    split at hs
    · next user busy hi =>
      obtain rfl := Option.some.inj hs
      have hread : active s user ≤ busy.length := h.stands _ (List.mem_of_getElem? hi)
      exact sound_set hi (fun _ => h.exclusive.alone hi rfl) (stands_checked busy user hread) h
    · cases hs
  | create i ok =>
    simp only [step] at hs
    split at hs
    · next user hi =>
      split_ifs at hs with hok
      · obtain rfl := Option.some.inj hs
        exact sound_create hi rfl h
      · obtain rfl := Option.some.inj hs
        exact sound_set hi (by simp [Pc.inFlight]) trivial h
    · cases hs
  | turn k status =>
    simp only [step] at hs
    split at hs
    · next c hk =>
      split_ifs at hs with hnext
      obtain rfl := Option.some.inj hs
      exact sound_turn hk hnext h
    · cases hs

/-- A user has no more active clusters than the cap, in every state of every run whose requests
list the clusters in turn. -/
theorem active_le_of_run {acts : List Action}
    (hturn : Along (step maxActiveClustersPerUser) InTurn start acts)
    (hrun : run (step maxActiveClustersPerUser) start acts = some s) (user : String) :
    active s user ≤ maxActiveClustersPerUser := by
  have hsound : Sound maxActiveClustersPerUser s :=
    run_invariant (sound_start _) (fun _ _ _ h hc hs => sound_step (by decide) h hc hs) hturn hrun
  exact hsound.capped user

/-- Two users' requests at once, and a request of one of them beside its cluster, and after it. -/
def oneAfterAnother : List Action :=
  [.request "paul", .request "alice", .list 0, .list 1, .check 1, .check 0, .create 0 true,
    .create 1 true, .request "paul", .list 2, .check 2, .turn 0 .stopping, .turn 0 .stopped,
    .request "paul", .list 3, .check 3, .create 3 true]

theorem active_le_of_run_oneAfterAnother : ∃ s,
    run (step maxActiveClustersPerUser) start oneAfterAnother = some s ∧
    s.clusters = [⟨"paul", .stopped⟩, ⟨"alice", .pending⟩, ⟨"paul", .pending⟩] ∧
    active s "paul" ≤ 1 ∧ active s "alice" ≤ 1 := by
  have hrun : ((run (step maxActiveClustersPerUser) start oneAfterAnother).bind fun s =>
      if s.clusters = [⟨"paul", .stopped⟩, ⟨"alice", .pending⟩, ⟨"paul", .pending⟩] then some ()
      else none) = some () := by
    decide +kernel
  simp only [Option.bind_eq_some_iff, Option.ite_none_right_eq_some] at hrun
  obtain ⟨s, hrun, hclusters, -⟩ := hrun
  have hturn : Along (step maxActiveClustersPerUser) InTurn start oneAfterAnother := by
    decide +kernel
  exact ⟨s, hrun, hclusters, active_le_of_run hturn hrun "paul", active_le_of_run hturn hrun "alice"⟩

/-- Two requests made at once both list no cluster, and both create one. -/
theorem not_active_le_atOnce : ¬∀ (acts : List Action) (s : Sys),
    run (step maxActiveClustersPerUser) start acts = some s →
      ∀ user, active s user ≤ maxActiveClustersPerUser := by
  intro h
  have hrun : ((run (step maxActiveClustersPerUser) start
      [.request "paul", .request "paul", .list 0, .list 1, .check 0, .create 0 true, .check 1,
        .create 1 true]).bind fun s => if active s "paul" = 2 then some () else none) =
      some () := by
    decide +kernel
  simp only [Option.bind_eq_some_iff, Option.ite_none_right_eq_some] at hrun
  obtain ⟨s, hrun, htwo, -⟩ := hrun
  have hle := h _ s hrun "paul"
  rw [htwo] at hle
  exact absurd hle (by decide)

end Steps

end PurdueAF.DaskGateway

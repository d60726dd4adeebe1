import PurdueAF.Machine
import Mathlib.Data.List.Nodup

/-!
# The seats of OpenCode's task calls

The plugin has a `task` call wait for a seat before it runs, and frees the seat from the hook of
a call that succeeded and from the events OpenCode publishes of every call's parts.
-/
namespace PurdueAF.OpenCodeSeats
open Machine

abbrev CallID := String

inductive Status
  | pending | running | completed | error
  deriving DecidableEq, Repr

structure Part where
  type : String
  tool : String
  callID : CallID
  status : Option Status
  compacted : Bool
  deriving DecidableEq, Repr

/-- `handed` are the calls whose promise is resolved and whose `sit` has not gone on yet; `started`
and `ended` the `task` calls whose hook ran and whose end was heard of. -/
structure Sys where
  free : ℕ
  seated : List CallID
  waiting : List CallID
  handed : List CallID
  started : List CallID
  ended : List CallID

def start (seats : ℕ) : Sys := ⟨seats, [], [], [], [], []⟩

inductive Action
  /-- `tool.execute.before` -/
  | before (tool : String) (callID : CallID)
  /-- `sit` goes on from its promise. -/
  | resume (callID : CallID)
  /-- `tool.execute.after` -/
  | after (tool : String) (callID : CallID)
  /-- `message.part.updated` -/
  | updated (part : Part)
  deriving DecidableEq, Repr

def add (seated : List CallID) (callID : CallID) : List CallID :=
  if callID ∈ seated then seated else seated ++ [callID]

/-- `sit` up to its await. -/
def sit (s : Sys) (callID : CallID) : Sys :=
  if s.free > 0 then { s with free := s.free - 1, seated := add s.seated callID }
  else { s with waiting := s.waiting ++ [callID] }

/-- `sit` from its await on. -/
def sitDown (s : Sys) (callID : CallID) : Sys :=
  { s with handed := s.handed.erase callID, seated := add s.seated callID }

def stand (s : Sys) (callID : CallID) : Sys :=
  if callID ∈ s.seated then
    let seated := s.seated.erase callID
    match s.waiting with
    | next :: rest => { s with seated := seated, waiting := rest, handed := s.handed ++ [next] }
    | [] => { s with seated := seated, free := s.free + 1 }
  else s

def finish (s : Sys) (callID : CallID) : Sys :=
  { stand s callID with ended := callID :: s.ended }

/-- The `task` call that the plugin hears has ended. Pruning a call's output publishes it again. -/
def Action.ends : Action → Option CallID
  | .after tool callID => if tool = "task" then some callID else none
  | .updated part =>
    if part.type ≠ "tool" ∨ part.status ≠ some .completed ∧ part.status ≠ some .error ∨
        part.compacted then none
    else if part.tool = "task" then some part.callID else none
  | _ => none

/-- A call's hook runs once, and not after the call has ended. -/
def step (s : Sys) : Action → Option Sys
  | .before tool callID =>
    if tool ≠ "task" then some s
    else if callID ∉ s.started ∧ callID ∉ s.ended then
      some { sit s callID with started := callID :: s.started }
    else none
  | .resume callID =>
    if callID ∈ s.handed then some (sitDown s callID) else none
  | a => some (match a.ends with
    | some callID => finish s callID
    | none => s)

/-- The seats that calls which have not ended hold, or have been handed. -/
def held (s : Sys) : ℕ := ((s.seated ++ s.handed).filter (· ∉ s.ended)).length

/-- The calls that sat down and have not ended. -/
def running (s : Sys) : ℕ := (s.seated.filter (· ∉ s.ended)).length

/-- No call ends while it waits for its seat, or before it sits down on the one it is handed. -/
def Sits (s : Sys) (a : Action) : Prop := ∀ callID ∈ a.ends, callID ∉ s.waiting ∧ callID ∉ s.handed

instance (s : Sys) (a : Action) : Decidable (Sits s a) :=
  inferInstanceAs (Decidable (∀ callID ∈ a.ends, _))

/-- The calls that have a seat, then those that are to have one, in their order. -/
def line (s : Sys) : List CallID := s.seated ++ s.handed ++ s.waiting

structure Sound (seats : ℕ) (s : Sys) : Prop where
  count : s.free + s.seated.length + s.handed.length = seats
  nodup : (line s).Nodup
  live : ∀ callID ∈ line s, callID ∈ s.started ∧ callID ∉ s.ended

section Steps
variable {seats : ℕ} {s s' : Sys} {callID : CallID} {a : Action}

theorem line_stand (h : callID ∈ s.seated) : line (stand s callID) = (line s).erase callID := by
  have herase : (line s).erase callID = s.seated.erase callID ++ s.handed ++ s.waiting := by
    unfold line
    rw [List.erase_append_left _ (List.mem_append_left _ h), List.erase_append_left _ h]
  rw [herase]
  unfold stand
  rw [if_pos h]
  cases s.waiting with
  | nil => simp [line]
  | cons next rest => simp [line]

theorem stand_count (h : callID ∈ s.seated) :
    (stand s callID).free + (stand s callID).seated.length + (stand s callID).handed.length =
      s.free + s.seated.length + s.handed.length := by
  have hpos : 0 < s.seated.length := List.length_pos_of_mem h
  have hlen : (s.seated.erase callID).length = s.seated.length - 1 := List.length_erase_of_mem h
  unfold stand
  rw [if_pos h]
  cases s.waiting with
  | nil =>
    dsimp only
    omega
  | cons next rest =>
    simp only [List.length_append, List.length_singleton]
    omega

theorem started_stand (s : Sys) (callID : CallID) : (stand s callID).started = s.started := by
  unfold stand
  split_ifs
  · cases s.waiting <;> rfl
  · rfl

theorem sound_finish (hsits : callID ∉ s.waiting ∧ callID ∉ s.handed) (h : Sound seats s) :
    Sound seats (finish s callID) := by
  by_cases hseated : callID ∈ s.seated
  · have hline : line (finish s callID) = (line s).erase callID := line_stand hseated
    refine ⟨(stand_count hseated).trans h.count, ?_, ?_⟩
    · rw [hline]
      exact h.nodup.erase callID
    · intro id hid
      rw [hline, h.nodup.mem_erase_iff] at hid
      obtain ⟨hne, hid⟩ := hid
      obtain ⟨hstarted, hended⟩ := h.live id hid
      refine ⟨?_, ?_⟩
      · show id ∈ (stand s callID).started
        rw [started_stand]
        exact hstarted
      · simp [finish, hne, hended]
  · have hkeep : finish s callID = { s with ended := callID :: s.ended } := by
      simp [finish, stand, hseated]
    rw [hkeep]
    refine ⟨h.count, h.nodup, ?_⟩
    intro id hid
    obtain ⟨hstarted, hended⟩ := h.live id hid
    have hne : id ≠ callID := by
      rintro rfl
      simp only [line, List.mem_append] at hid
      rcases hid with (hid | hid) | hid
      · exact hseated hid
      · exact hsits.2 hid
      · exact hsits.1 hid
    exact ⟨hstarted, by simp [hne, hended]⟩

theorem sound_sit (hstarted : callID ∉ s.started) (hended : callID ∉ s.ended) (h : Sound seats s) :
    Sound seats { sit s callID with started := callID :: s.started } := by
  have hfresh : callID ∉ line s := fun hmem => hstarted (h.live callID hmem).1
  have hcons : (callID :: line s).Nodup := List.nodup_cons.mpr ⟨hfresh, h.nodup⟩
  -- Where the call sits or waits, the line is the old one and the call.
  have hline : (line (sit s callID)).Perm (callID :: line s) ∧
      (sit s callID).free + (sit s callID).seated.length + (sit s callID).handed.length = seats ∧
      (sit s callID).ended = s.ended := by
    have hcount := h.count
    unfold sit
    split_ifs with hfree
    · have hnot : callID ∉ s.seated := fun hmem => hfresh (by simp [line, hmem])
      have hadd : add s.seated callID = s.seated ++ [callID] := if_neg hnot
      refine ⟨?_, ?_, rfl⟩
      · simp only [line, hadd]
        rw [List.append_assoc, List.append_assoc, List.append_assoc]
        exact List.perm_middle
      · simp only [hadd, List.length_append, List.length_singleton]
        omega
    · refine ⟨?_, hcount, rfl⟩
      simp only [line]
      rw [← List.append_assoc]
      exact List.perm_append_singleton _ _
  obtain ⟨hperm, hcount, hsame⟩ := hline
  refine ⟨hcount, hperm.nodup_iff.mpr hcons, ?_⟩
  intro id hid
  have hmem : id ∈ callID :: line s := hperm.mem_iff.mp hid
  show id ∈ callID :: s.started ∧ id ∉ (sit s callID).ended
  rw [hsame]
  rcases List.mem_cons.mp hmem with rfl | hmem
  · exact ⟨List.mem_cons_self, hended⟩
  · exact ⟨List.mem_cons_of_mem _ (h.live id hmem).1, (h.live id hmem).2⟩

theorem sound_resume (hhanded : callID ∈ s.handed) (h : Sound seats s) :
    Sound seats (sitDown s callID) := by
  have hnodup := h.nodup
  have hcount := h.count
  have hnot : callID ∉ s.seated := by
    intro hmem
    simp only [line, List.append_assoc, List.nodup_append] at hnodup
    exact hnodup.2.2 callID hmem callID (by simp [hhanded]) rfl
  have hadd : add s.seated callID = s.seated ++ [callID] := if_neg hnot
  have hpos : 0 < s.handed.length := List.length_pos_of_mem hhanded
  have hlen : (s.handed.erase callID).length = s.handed.length - 1 :=
    List.length_erase_of_mem hhanded
  have hperm : (line (sitDown s callID)).Perm (line s) := by
    simp only [line, sitDown, hadd]
    have hback : ([callID] ++ s.handed.erase callID).Perm s.handed :=
      (List.perm_cons_erase hhanded).symm
    rw [List.append_assoc s.seated]
    exact (hback.append_left s.seated).append_right s.waiting
  refine ⟨?_, hperm.nodup_iff.mpr hnodup, fun id hid => h.live id (hperm.mem_iff.mp hid)⟩
  simp only [sitDown, hadd, List.length_append, List.length_singleton]
  omega

theorem sound_step (h : Sound seats s) (hc : Sits s a) (hs : step s a = some s') :
    Sound seats s' := by
  have hend : ∀ a : Action, Sits s a → Sound seats (match a.ends with
      | some callID => finish s callID
      | none => s) := by
    intro a hc
    split
    · next callID hends => exact sound_finish (hc callID hends) h
    · exact h
  cases a with
  | before tool callID =>
    simp only [step] at hs
    split_ifs at hs with htool hnew
    · obtain rfl := Option.some.inj hs
      exact h
    · obtain rfl := Option.some.inj hs
      exact sound_sit hnew.1 hnew.2 h
  | resume callID =>
    simp only [step] at hs
    split_ifs at hs with hhanded
    obtain rfl := Option.some.inj hs
    exact sound_resume hhanded h
  | after tool callID =>
    obtain rfl := Option.some.inj hs
    exact hend _ hc
  | updated part =>
    obtain rfl := Option.some.inj hs
    exact hend _ hc

theorem sound_start (seats : ℕ) : Sound seats (start seats) := by
  refine ⟨rfl, List.nodup_nil, ?_⟩
  intro callID hid
  cases hid

theorem held_eq (h : Sound seats s) : held s = s.seated.length + s.handed.length := by
  have hall : (s.seated ++ s.handed).filter (· ∉ s.ended) = s.seated ++ s.handed := by
    refine List.filter_eq_self.mpr fun id hid => ?_
    have hlive := h.live id (List.mem_append_left _ hid)
    simpa using hlive.2
  unfold held
  rw [hall, List.length_append]

/-- No seat is lost in a run in which every call that ends had its seat. -/
theorem seats_kept_of_run {acts : List Action} (hsits : Along step Sits (start seats) acts)
    (hrun : run step (start seats) acts = some s) :
    s.free + held s = seats ∧ running s ≤ seats ∧
      ((∀ callID ∈ s.started, callID ∈ s.ended) → s.free = seats) := by
  have hsound : Sound seats s :=
    run_invariant (sound_start seats) (fun _ _ _ h hc hs => sound_step h hc hs) hsits hrun
  have hheld := held_eq hsound
  have hcount := hsound.count
  refine ⟨?_, ?_, ?_⟩
  · omega
  · have hle : running s ≤ s.seated.length := List.length_filter_le _ _
    omega
  · intro hall
    have hzero : held s = 0 := by
      unfold held
      rw [List.length_eq_zero_iff, List.filter_eq_nil_iff]
      intro id hid
      have hlive := hsound.live id (List.mem_append_left _ hid)
      exact absurd (hall id hlive.1) hlive.2
    omega

/-- Two calls and one seat, which the second is handed; the first one's end is published again. -/
def handedOver : List Action :=
  [.before "task" "a", .before "task" "b", .after "task" "a",
    .updated ⟨"tool", "task", "a", some .completed, false⟩, .resume "b",
    .updated ⟨"tool", "task", "b", some .error, false⟩,
    .updated ⟨"tool", "task", "a", some .completed, true⟩]

theorem seats_kept_of_run_handedOver : ∃ s, run step (start 1) handedOver = some s ∧
    s.started = ["b", "a"] ∧ s.free + held s = 1 ∧ running s ≤ 1 ∧ s.free = 1 := by
  have hrun : ((run step (start 1) handedOver).bind fun s =>
      if s.started = ["b", "a"] ∧ ∀ callID ∈ s.started, callID ∈ s.ended then some () else none) =
      some () := by
    decide +kernel
  simp only [Option.bind_eq_some_iff, Option.ite_none_right_eq_some] at hrun
  obtain ⟨s, hrun, ⟨hstarted, hall⟩, -⟩ := hrun
  obtain ⟨hcount, hrunning, hfree⟩ := seats_kept_of_run (by decide +kernel) hrun
  exact ⟨s, hrun, hstarted, hcount, hrunning, hfree hall⟩

/-- A call aborted while it waits stays in the queue: it is handed the seat of the call before it,
and nothing frees that seat. -/
theorem not_seats_kept_aborted : ¬∀ (seats : ℕ) (acts : List Action) (s : Sys),
    run step (start seats) acts = some s →
      s.free + held s = seats ∧ running s ≤ seats ∧
        ((∀ callID ∈ s.started, callID ∈ s.ended) → s.free = seats) := by
  intro h
  have hrun : ((run step (start 1) [.before "task" "a", .before "task" "b",
      .updated ⟨"tool", "task", "b", some .error, false⟩, .after "task" "a",
      .updated ⟨"tool", "task", "a", some .completed, false⟩, .resume "b"]).bind fun s =>
      if (∀ callID ∈ s.started, callID ∈ s.ended) ∧ s.free = 0 ∧ s.free + held s = 0 then some ()
      else none) = some () := by
    decide +kernel
  simp only [Option.bind_eq_some_iff, Option.ite_none_right_eq_some] at hrun
  obtain ⟨s, hrun, ⟨hall, hnone, -⟩, -⟩ := hrun
  have hfree := (h 1 _ s hrun).2.2 hall
  omega

end Steps

end PurdueAF.OpenCodeSeats

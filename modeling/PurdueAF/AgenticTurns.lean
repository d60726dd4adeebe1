import PurdueAF.Machine
import PurdueAF.PyJson
import Mathlib.Data.List.Infix

/-!
# The turns of an agentic analysis

An attempt of a run makes turns on OpenCode until the agent ends its own. What stays of an attempt
that stops anywhere is the workspace: OpenCode's session, and the run's file that says its reply
was delivered.
-/
namespace PurdueAF.AgenticAnalysis
open Machine

def unattended : String :=
  "You are running unattended. " ++
  "Nobody can answer a question before the human gate. Do not stop to ask one: decide, " ++
  "note the decision in experiment_log.md, and continue.\n" ++
  "At the human gate, end your turn with what you would show the human and where " ++
  "the compiled note is. The reply arrives as your next message.\n\n"

def interrupted : String :=
  "The session was interrupted. " ++
  "Check what is on disk and continue from where you left off. " ++
  "If you were waiting for the human, you still are: end your turn again."

/-- `REPLY.format` -/
def replyPrompt (reply : String) : String := "The human's reply: " ++ reply

def resumes : ℕ := 3

def ongoing : List String := ["", "tool-calls", "unknown"]

/-- `told` is the file `replies/<run>`, `prompt` the analysis's `prompt.md`. -/
structure Workspace where
  session : Option String
  told : Option String
  prompt : String
  deriving DecidableEq, Repr

def analysisPrompt (ws : Workspace) : String := unattended ++ ws.prompt

/-- `_turn` -/
def turn (dir : String) (ws : Workspace) (reply : String) : List String × String :=
  let command := ["opencode", "run", "--format", "json", "--dir", dir, "--agent", "orchestrator"]
  match ws.session with
  | some session =>
    let prompt := if reply ≠ "" then replyPrompt reply else interrupted
    (command ++ ["--session", String.ofList (Py.stripSpace session.toList)], prompt)
  | none => (command, analysisPrompt ws)

/-- A non-empty `error` of an event. -/
structure ErrorInfo where
  name : Option String
  message : Option String
  statusCode : Option ℤ
  deriving DecidableEq, Repr

/-- A line of OpenCode's output that is an object; texts it lacks are empty. -/
structure Event where
  sessionID : String
  type : String
  text : String
  synthetic : Bool
  compactionContinue : Bool
  reason : String
  error : Option ErrorInfo
  deriving DecidableEq, Repr

/-- What `_opencode` keeps of the events. -/
structure Heard where
  main : String
  said : String
  finish : String
  steps : ℕ
  text : List String
  error : Option ErrorInfo
  compacted : ℕ
  deriving DecidableEq, Repr

def Heard.empty : Heard := ⟨"", "", "", 0, [], none, 0⟩

def paragraphs (texts : List String) : String := String.intercalate "\n\n" texts

def Heard.hear (h : Heard) (event : Event) : Heard :=
  let h := if event.sessionID ≠ "" then { h with main := event.sessionID } else h
  if event.type = "step_start" then { h with text := [] }
  else if event.type = "text" ∧ event.synthetic = false then
    let text := h.text ++ [event.text]
    { h with text := text, said := paragraphs text }
  else if event.compactionContinue then { h with said := "" }
  else if event.type = "step_finish" then
    let h := { h with finish := event.reason, steps := h.steps + 1 }
    -- OpenCode compacts after a context overflow, this step its summary.
    if h.error.bind (·.name) = some "ContextOverflowError" then
      { h with error := none, compacted := h.steps, said := "" }
    else h
  else if event.type = "error" then { h with error := event.error }
  else h

inductive Raised
  | runtime (message : String)
  | nonRecoverable (message : String)
  deriving DecidableEq, Repr

def ErrorInfo.detail (e : ErrorInfo) : String :=
  match e.message with
  | some message => if message ≠ "" then message else e.name.getD "None"
  | none => e.name.getD "None"

/-- How `_opencode` returns once the process is over; `ended` is why its watch ended it, `loaded`
whether its plugin loaded. -/
def Heard.outcome (h : Heard) (ended : String) (loaded : Bool) (returncode : ℤ) :
    Except Raised (String × String) :=
  if ended ≠ "" then .error (.runtime ("opencode: " ++ ended))
  else if !loaded then .error (.runtime "opencode: its plugin did not load")
  else
    match h.error with
    | some e =>
      if e.statusCode = some 401 ∨ e.statusCode = some 403 then
        .error (.nonRecoverable ("opencode: " ++ e.detail))
      else .error (.runtime ("opencode: " ++ e.detail))
    | none =>
      let wentOn := 0 < h.compacted ∧ h.compacted < h.steps ∧ h.finish ∉ ongoing
      if returncode ≠ 0 ∧ ¬(returncode = 1 ∧ wentOn) then
        .error (.runtime ("opencode exited " ++ toString returncode))
      else .ok (h.said, h.finish)

/-- `holds` is whether OpenCode holds the prompt, `taken` the reply that is to be written once it
does, `event` the one whose session and reply are being written. -/
structure Turn where
  command : List String
  prompt : String
  known : Bool
  holds : Bool
  taken : Option String
  event : Option Event
  heard : Heard
  deriving DecidableEq, Repr

inductive Pc
  | idle
  /-- `_agent` before its next turn, of `left`. -/
  | ready (reply : String) (left : ℕ) (kept : List String)
  | turning (turn : Turn) (left : ℕ) (kept : List String)
  deriving DecidableEq, Repr

/-- `ended` is how the last attempt that came to an end did. -/
structure Sys where
  ws : Workspace
  pc : Pc
  ended : Option (Except Raised String)

def start (ws : Workspace) : Sys := ⟨ws, .idle, none⟩

inductive Action
  /-- `advance` has the workspace's lock. -/
  | attempt
  | turn
  /-- OpenCode holds the prompt. -/
  | holds
  | event (event : Event)
  | store
  | tell
  | exited (ended : String) (loaded : Bool) (returncode : ℤ) (replies : List String)
  /-- The attempt crashes, or anything it does raises. -/
  | stop
  /-- The agent, or another run between two attempts, writes in the workspace. -/
  | prompt (text : String)
  | session (session : Option String)

/-- `_agent` after a turn. -/
def afterTurn (s : Sys) (left : ℕ) (kept : List String) : Except Raised (String × String) → Sys
  | .error raised => { s with pc := .idle, ended := some (.error raised) }
  | .ok (said, finish) =>
    if finish ≠ "length" then
      { s with pc := .idle, ended := some (.ok (paragraphs ((kept ++ [said]).filter (· ≠ "")))) }
    else { s with pc := .ready "" left kept }

def startTurn (dir : String) (s : Sys) (reply : String) (left : ℕ) (kept : List String) : Sys :=
  let built := turn dir s.ws reply
  let taken := if reply ≠ "" then some reply else none
  let t := ⟨built.1, built.2, s.ws.session.isSome, false, taken, none, .empty⟩
  { s with pc := .turning t left kept }

def outOfTokens (s : Sys) : Sys :=
  { s with
    pc := .idle
    ended := some (.error (.runtime
      ("the agent's replies ran out of output tokens " ++ toString (resumes + 1) ++ " times"))) }

/-- The end of an event: the reply is written once, on the first that names the session. -/
def tellStep (s : Sys) (t : Turn) (event : Event) (left : ℕ) (kept : List String) : Sys :=
  let t' := { t with event := none, heard := t.heard.hear event }
  match t.taken with
  | some reply =>
    if event.sessionID ≠ "" then
      { s with
        ws := { s.ws with told := some reply }
        pc := .turning { t' with taken := none } left kept }
    else { s with pc := .turning t' left kept }
  | none => { s with pc := .turning t' left kept }

def step (dir reply : String) (s : Sys) : Action → Option Sys
  | .attempt =>
    match s.pc with
    | .idle =>
      let reply := if s.ws.told.isSome then "" else reply
      some { s with pc := .ready reply (resumes + 1) [] }
    | _ => none
  | .turn =>
    match s.pc with
    | .ready _ 0 _ => some (outOfTokens s)
    | .ready reply (left + 1) kept => some (startTurn dir s reply left kept)
    | _ => none
  | .holds =>
    match s.pc with
    | .turning t left kept => some { s with pc := .turning { t with holds := true } left kept }
    | _ => none
  | .event event =>
    match s.pc with
    | .turning t left kept =>
      -- OpenCode names its session only once it holds the prompt.
      if t.event = none ∧ (event.sessionID ≠ "" → t.holds = true) then
        some { s with pc := .turning { t with event := some event } left kept }
      else none
    | _ => none
  | .store =>
    match s.pc with
    | .turning t left kept =>
      match t.event with
      | some event =>
        if event.sessionID ≠ "" ∧ t.known = false then
          some
            { s with
              ws := { s.ws with session := some event.sessionID }
              pc := .turning { t with known := true } left kept }
        else none
      | none => none
    | _ => none
  | .tell =>
    match s.pc with
    | .turning t left kept =>
      match t.event with
      | some event =>
        if event.sessionID ≠ "" → t.known = true then some (tellStep s t event left kept) else none
      | none => none
    | _ => none
  | .exited ended loaded returncode replies =>
    match s.pc with
    | .turning t left kept =>
      if t.event = none then
        some (afterTurn s left (kept ++ replies) (t.heard.outcome ended loaded returncode))
      else none
    | _ => none
  | .stop => if s.pc = .idle then none else some { s with pc := .idle }
  | .prompt text => some { s with ws := { s.ws with prompt := text } }
  | .session session =>
    match s.pc with
    | .idle => some { s with ws := { s.ws with session := session } }
    | _ => none

/-- The reply that the next turn is to deliver. -/
def Pc.undelivered : Pc → Option String
  | .ready reply _ _ => if reply ≠ "" then some reply else none
  | _ => none

/-- A turn that is to deliver the reply finds a session to send it to, or an analysis whose own
prompt has it. -/
def Answers (s : Sys) : Action → Prop
  | .turn => ∀ reply ∈ s.pc.undelivered,
      s.ws.session.isSome ∨ reply.toList <:+: (analysisPrompt s.ws).toList
  | _ => True

instance (s : Sys) : ∀ a, Decidable (Answers s a)
  | .turn => inferInstanceAs (Decidable (∀ reply ∈ s.pc.undelivered, _))
  | .attempt | .holds | .event _ | .store | .tell | .exited _ _ _ _ | .stop | .prompt _
  | .session _ => .isTrue trivial

/-- What the turn knows of the reply: it is yet to be delivered, and the prompt has it. -/
structure Carries (reply : String) (ws : Workspace) (t : Turn) : Prop where
  taken : ∀ r ∈ t.taken, r = reply ∧ ws.told = none ∧ reply.toList <:+: t.prompt.toList
  holds : ∀ event ∈ t.event, event.sessionID ≠ "" → t.holds = true

def Sound (reply : String) (s : Sys) : Prop :=
  match s.pc with
  | .idle => True
  | .ready r _ _ => r = "" ∨ r = reply ∧ s.ws.told = none
  | .turning t _ _ => Carries reply s.ws t

section Steps
variable {dir reply : String} {s s' : Sys} {a : Action}

theorem infix_replyPrompt (reply : String) : reply.toList <:+: (replyPrompt reply).toList := by
  unfold replyPrompt
  rw [String.toList_append]
  exact List.suffix_append _ _ |>.isInfix

theorem infix_turn (ws : Workspace) (hreply : reply ≠ "")
    (h : ws.session.isSome ∨ reply.toList <:+: (analysisPrompt ws).toList) :
    reply.toList <:+: (turn dir ws reply).2.toList := by
  unfold turn
  cases hs : ws.session with
  | some session =>
    dsimp only
    rw [if_pos hreply]
    exact infix_replyPrompt reply
  | none =>
    rcases h with h | h
    · rw [hs] at h
      cases h
    · exact h

/-- Without a reply the turn's prompt is a nudge, or the analysis's own. -/
theorem turn_empty (dir : String) (ws : Workspace) :
    (turn dir ws "").2 = interrupted ∨ (turn dir ws "").2 = analysisPrompt ws := by
  unfold turn
  cases ws.session with
  | some session =>
    refine .inl ?_
    dsimp only
    rw [if_neg (by simp)]
  | none => exact .inr rfl

theorem append_ne_append {a b : String} (n : ℕ) (ha : n ≤ a.toList.length)
    (hb : n ≤ b.toList.length) (h : a.toList.take n ≠ b.toList.take n) (c d : String) :
    a ++ c ≠ b ++ d := by
  intro heq
  have htake := congrArg (fun text : String => text.toList.take n) heq
  simp only [String.toList_append, List.take_append_of_le_length ha,
    List.take_append_of_le_length hb] at htake
  exact h htake

theorem interrupted_ne_reply (text : String) : interrupted ≠ replyPrompt text := by
  unfold interrupted replyPrompt
  rw [String.append_assoc]
  exact append_ne_append 5 (by decide +kernel) (by decide +kernel) (by decide +kernel) _ _

theorem analysisPrompt_ne_reply (ws : Workspace) (text : String) :
    analysisPrompt ws ≠ replyPrompt text := by
  unfold analysisPrompt unattended replyPrompt
  simp only [String.append_assoc]
  exact append_ne_append 1 (by decide +kernel) (by decide +kernel) (by decide +kernel) _ _

theorem sound_startTurn {r : String} {left : ℕ} {kept : List String}
    (hr : r = "" ∨ r = reply ∧ s.ws.told = none)
    (hc : r ≠ "" → s.ws.session.isSome ∨ r.toList <:+: (analysisPrompt s.ws).toList) :
    Sound reply (startTurn dir s r left kept) := by
  refine ⟨?_, by simp⟩
  intro r' htaken
  by_cases hempty : r = ""
  · simp [hempty] at htaken
  · rcases hr with hr | ⟨rfl, htold⟩
    · exact absurd hr hempty
    · have hrr : r' = r := by simpa [hempty, eq_comm] using htaken
      exact ⟨hrr, htold, infix_turn s.ws hempty (hc hempty)⟩

theorem sound_tellStep {t : Turn} {event : Event} {left : ℕ} {kept : List String}
    (h : Carries reply s.ws t) : Sound reply (tellStep s t event left kept) := by
  unfold tellStep
  split
  · split_ifs with hnamed
    · exact ⟨by simp, by simp⟩
    · exact ⟨h.taken, by simp⟩
  · exact ⟨h.taken, by simp⟩

theorem sound_afterTurn {left : ℕ} {kept : List String} (s : Sys)
    (result : Except Raised (String × String)) : Sound reply (afterTurn s left kept result) := by
  unfold afterTurn
  cases result with
  | error raised => trivial
  | ok result =>
    dsimp only
    split_ifs
    · trivial
    · exact Or.inl rfl

/-- What a step does, by where the attempt stands. -/
inductive Does (dir reply : String) (s : Sys) : Action → Sys → Prop
  | attempt (hpc : s.pc = .idle) : Does dir reply s .attempt
      { s with pc := .ready (if s.ws.told.isSome then "" else reply) (resumes + 1) [] }
  | out {r kept} (hpc : s.pc = .ready r 0 kept) : Does dir reply s .turn (outOfTokens s)
  | turn {r left kept} (hpc : s.pc = .ready r (left + 1) kept) :
    Does dir reply s .turn (startTurn dir s r left kept)
  | holds {t left kept} (hpc : s.pc = .turning t left kept) :
    Does dir reply s .holds { s with pc := .turning { t with holds := true } left kept }
  | event {t left kept} (event : Event) (hpc : s.pc = .turning t left kept)
    (hnamed : event.sessionID ≠ "" → t.holds = true) :
    Does dir reply s (.event event)
      { s with pc := .turning { t with event := some event } left kept }
  | store {t left kept} (event : Event) (hpc : s.pc = .turning t left kept) :
    Does dir reply s .store
      { s with
        ws := { s.ws with session := some event.sessionID }
        pc := .turning { t with known := true } left kept }
  | tell {t left kept} (event : Event) (hpc : s.pc = .turning t left kept)
    (hevent : t.event = some event) : Does dir reply s .tell (tellStep s t event left kept)
  | exited {t left kept} (ended : String) (loaded : Bool) (returncode : ℤ) (replies : List String)
    (hpc : s.pc = .turning t left kept) : Does dir reply s (.exited ended loaded returncode replies)
      (afterTurn s left (kept ++ replies) (t.heard.outcome ended loaded returncode))
  | stop : Does dir reply s .stop { s with pc := .idle }
  | prompt (text : String) :
    Does dir reply s (.prompt text) { s with ws := { s.ws with prompt := text } }
  | session (session : Option String) (hpc : s.pc = .idle) :
    Does dir reply s (.session session) { s with ws := { s.ws with session := session } }

theorem does_of_step (hs : step dir reply s a = some s') : Does dir reply s a s' := by
  cases a with
  | attempt =>
    simp only [step] at hs
    split at hs
    · next hpc =>
      obtain rfl := Option.some.inj hs
      exact .attempt hpc
    · cases hs
  | turn =>
    simp only [step] at hs
    split at hs
    · next hpc =>
      obtain rfl := Option.some.inj hs
      exact .out hpc
    · next hpc =>
      obtain rfl := Option.some.inj hs
      exact .turn hpc
    · cases hs
  | holds =>
    simp only [step] at hs
    split at hs
    · next hpc =>
      obtain rfl := Option.some.inj hs
      exact .holds hpc
    · cases hs
  | event event =>
    simp only [step] at hs
    split at hs
    · next hpc =>
      split_ifs at hs with hguard
      obtain rfl := Option.some.inj hs
      exact .event event hpc hguard.2
    · cases hs
  | store =>
    simp only [step] at hs
    split at hs
    · next hpc =>
      split at hs
      · split_ifs at hs
        obtain rfl := Option.some.inj hs
        exact .store _ hpc
      · cases hs
    · cases hs
  | tell =>
    simp only [step] at hs
    split at hs
    · next hpc =>
      split at hs
      · next event hevent =>
        split_ifs at hs
        obtain rfl := Option.some.inj hs
        exact .tell event hpc hevent
      · cases hs
    · cases hs
  | exited ended loaded returncode replies =>
    simp only [step] at hs
    split at hs
    · next hpc =>
      split_ifs at hs
      obtain rfl := Option.some.inj hs
      exact .exited ended loaded returncode replies hpc
    · cases hs
  | stop =>
    simp only [step] at hs
    split_ifs at hs
    obtain rfl := Option.some.inj hs
    exact .stop
  | prompt text =>
    obtain rfl := Option.some.inj hs
    exact .prompt text
  | session session =>
    simp only [step] at hs
    split at hs
    · next hpc =>
      obtain rfl := Option.some.inj hs
      exact .session session hpc
    · cases hs

theorem sound_step (h : Sound reply s) (hc : Answers s a) (hs : step dir reply s a = some s') :
    Sound reply s' := by
  have hcarries : ∀ {t left kept}, s.pc = .turning t left kept → Carries reply s.ws t := by
    intro t left kept hpc
    simpa only [Sound, hpc] using h
  cases does_of_step hs with
  | attempt hpc =>
    cases htold : s.ws.told with
    | none => exact Or.inr ⟨by simp, htold⟩
    | some text => exact Or.inl (by simp)
  | out hpc => trivial
  | turn hpc =>
    simp only [Sound, hpc] at h
    refine sound_startTurn h fun hreply => hc _ ?_
    simp [hpc, Pc.undelivered, hreply]
  | holds hpc => exact ⟨(hcarries hpc).taken, fun _ _ _ => rfl⟩
  | event event hpc hnamed =>
    refine ⟨(hcarries hpc).taken, fun e he => ?_⟩
    obtain rfl := Option.some.inj he
    exact hnamed
  | store event hpc => exact ⟨(hcarries hpc).taken, (hcarries hpc).holds⟩
  | tell event hpc hevent => exact sound_tellStep (hcarries hpc)
  | exited ended loaded returncode replies hpc => exact sound_afterTurn s _
  | stop => trivial
  | prompt text =>
    cases hpc : s.pc with
    | idle => simp [Sound]
    | ready r left kept =>
      simp only [Sound, hpc] at h ⊢
      exact h
    | turning t left kept =>
      simp only [Sound]
      exact ⟨(hcarries hpc).taken, (hcarries hpc).holds⟩
  | session session hpc => simp only [Sound, hpc]

theorem sound_start (reply : String) (ws : Workspace) : Sound reply (start ws) := trivial

theorem ws_afterTurn (left : ℕ) (kept : List String) (result : Except Raised (String × String)) :
    (afterTurn s left kept result).ws = s.ws := by
  unfold afterTurn
  cases result with
  | error raised => rfl
  | ok result =>
    dsimp only
    split_ifs <;> rfl

/-- Only the end of an event writes the run's file, in a turn whose prompt OpenCode holds. -/
theorem told_of_step (h : Sound reply s) (hs : step dir reply s a = some s')
    (hwrote : s'.ws.told ≠ s.ws.told) : ∃ t left kept, s.pc = .turning t left kept ∧
      t.holds = true ∧ reply.toList <:+: t.prompt.toList := by
  cases does_of_step hs with
  | @tell t left kept event hpc hevent =>
    simp only [Sound, hpc] at h
    unfold tellStep at hwrote
    split at hwrote
    · next r htaken =>
      obtain ⟨-, -, hinfix⟩ := h.taken r htaken
      split_ifs at hwrote with hnamed
      · exact ⟨t, left, kept, hpc, h.holds event hevent hnamed, hinfix⟩
      · exact absurd rfl hwrote
    · exact absurd rfl hwrote
  | exited ended loaded returncode replies hpc =>
    rw [ws_afterTurn] at hwrote
    exact absurd rfl hwrote
  | attempt | out | turn | holds | event | store | stop | prompt | session =>
    exact absurd rfl hwrote

/-- With the run's file there, no turn is built of a reply. -/
theorem not_reply_of_turn (h : Sound reply s) (htold : s.ws.told.isSome)
    (hs : step dir reply s .turn = some s') {t : Turn} {left : ℕ} {kept : List String}
    (ht : s'.pc = .turning t left kept) (text : String) : t.prompt ≠ replyPrompt text := by
  cases does_of_step hs with
  | out hpc => cases ht
  | @turn r left kept hpc =>
    simp only [Sound, hpc] at h
    obtain rfl : r = "" := by
      rcases h with h | ⟨-, hnone⟩
      · exact h
      · rw [hnone] at htold
        cases htold
    obtain ⟨rfl, -, -⟩ := Pc.turning.inj ht
    rcases turn_empty dir s.ws with hprompt | hprompt
    · show (turn dir s.ws "").2 ≠ replyPrompt text
      rw [hprompt]
      exact interrupted_ne_reply text
    · show (turn dir s.ws "").2 ≠ replyPrompt text
      rw [hprompt]
      exact analysisPrompt_ne_reply s.ws text

/-- The run's file is written only in a turn whose prompt, as OpenCode holds it, contains the
reply, and once it is there no turn of the run sends the reply. -/
theorem reply_delivered_of_run {ws : Workspace} {acts : List Action}
    (hanswers : Along (step dir reply) Answers (start ws) acts)
    (hrun : run (step dir reply) (start ws) acts = some s) :
    ∀ a s', Answers s a → step dir reply s a = some s' →
      (s'.ws.told ≠ s.ws.told → ∃ t left kept, s.pc = .turning t left kept ∧
        t.holds = true ∧ reply.toList <:+: t.prompt.toList) ∧
      (s.ws.told.isSome → a = .turn → ∀ t left kept, s'.pc = .turning t left kept →
        ∀ text, t.prompt ≠ replyPrompt text) := by
  have hsound : Sound reply s :=
    run_invariant (sound_start reply ws) (fun _ _ _ h hc hs => sound_step h hc hs) hanswers hrun
  intro a s' _ hs
  refine ⟨told_of_step hsound hs, ?_⟩
  rintro htold rfl t left kept ht text
  exact not_reply_of_turn hsound htold hs ht text

/-- OpenCode names its session as a step starts. -/
def named : Event := ⟨"ses_1", "step_start", "", false, false, "", none⟩

/-- A first attempt crashes before OpenCode has named its session; a second comes to the write. -/
def crashedOnce : List Action :=
  [.attempt, .turn, .stop, .attempt, .turn, .holds, .event named]

theorem reply_delivered_of_run_crashedOnce : ∃ s s',
    run (step "/w" "APPROVE") (start ⟨some "ses_1", none, "Measure."⟩) crashedOnce = some s ∧
    step "/w" "APPROVE" s .tell = some s' ∧ s'.ws.told = some "APPROVE" ∧
    ∃ t left kept, s.pc = .turning t left kept ∧ t.holds = true ∧
      "APPROVE".toList <:+: t.prompt.toList := by
  have hrun : ((run (step "/w" "APPROVE") (start ⟨some "ses_1", none, "Measure."⟩)
      crashedOnce).bind fun s => (step "/w" "APPROVE" s .tell).bind fun s' =>
        if s.ws.told = none ∧ s'.ws.told = some "APPROVE" then some () else none) = some () := by
    decide +kernel
  simp only [Option.bind_eq_some_iff, Option.ite_none_right_eq_some] at hrun
  obtain ⟨s, hrun, s', hstep, ⟨hnone, htold⟩, -⟩ := hrun
  have hwrote : s'.ws.told ≠ s.ws.told := by
    rw [hnone, htold]
    simp
  have hdelivered := reply_delivered_of_run (by decide +kernel) hrun .tell s' trivial hstep
  exact ⟨s, s', hrun, hstep, htold, hdelivered.1 hwrote⟩

theorem not_infix_analysisPrompt :
    ¬"APPROVE".toList <:+: (analysisPrompt ⟨none, none, "Measure."⟩).toList := by
  intro h
  have hmem : 'V' ∈ (analysisPrompt ⟨none, none, "Measure."⟩).toList :=
    h.subset (by decide +kernel)
  unfold analysisPrompt unattended at hmem
  simp only [String.toList_append, List.mem_append] at hmem
  -- the characters of the literals
  repeat rw [String.toList_ofList] at hmem
  revert hmem
  decide +kernel

/-- On a workspace without a session the prompt is the analysis's own, and the run's file is
written all the same. -/
theorem not_reply_delivered_newSession : ¬∀ (dir reply : String) (ws : Workspace)
    (acts : List Action) (s : Sys), reply ≠ "" →
    run (step dir reply) (start ws) acts = some s →
    ∀ a s', step dir reply s a = some s' →
      (s'.ws.told ≠ s.ws.told → ∃ t left kept, s.pc = .turning t left kept ∧
        t.holds = true ∧ reply.toList <:+: t.prompt.toList) ∧
      (s.ws.told.isSome → a = .turn → ∀ t left kept, s'.pc = .turning t left kept →
        ∀ text, t.prompt ≠ replyPrompt text) := by
  intro h
  let ws : Workspace := ⟨none, none, "Measure."⟩
  let t : Turn := ⟨(turn "/w" ws "APPROVE").1, analysisPrompt ws, true, true, some "APPROVE",
    some named, .empty⟩
  let s : Sys := ⟨⟨some "ses_1", none, "Measure."⟩, .turning t 3 [], none⟩
  have hrun : run (step "/w" "APPROVE") (start ws)
      [.attempt, .turn, .holds, .event named, .store] = some s := rfl
  have hstep : step "/w" "APPROVE" s .tell = some (tellStep s t named 3 []) := rfl
  have hwrote : (tellStep s t named 3 []).ws.told ≠ s.ws.told := by
    show some "APPROVE" ≠ none
    simp
  obtain ⟨t', _, _, hpc, -, hinfix⟩ :=
    (h "/w" "APPROVE" ws _ s (by decide) hrun .tell _ hstep).1 hwrote
  obtain ⟨rfl, -, -⟩ := Pc.turning.inj hpc
  exact not_infix_analysisPrompt hinfix

end Steps

end PurdueAF.AgenticAnalysis

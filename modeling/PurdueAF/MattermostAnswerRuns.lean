import PurdueAF.MattermostAnswers

/-!
# What an answer may do

The model calls the tools, and anyone may write in a thread. Yet nobody's account is used but the
author's, and then only on the author's own words; every call gets its result, the turns end, and
what is posted pings nobody.
-/
namespace PurdueAF.MattermostAnswers
open Asking Py

section Pings
variable {isWord : Char → Bool}

/-- `AT_NAME.search`, of the text after `prev`. -/
def pings (isWord : Char → Bool) (prev : Option Char) : List Char → Bool
  | [] => false
  | c :: cs => mentions isWord prev c cs.head? || pings isWord (some c) cs

theorem head?_unping (prev : Option Char) (cs : List Char) :
    (unping isWord prev cs).head? = cs.head? := by
  cases cs with
  | nil => rfl
  | cons c cs =>
    unfold unping
    split <;> rfl

theorem mentions_of_ne {prev next : Option Char} {c : Char} (h : c ≠ '@') :
    mentions isWord prev c next = false := by simp [mentions, h]

/-- What comes before matters to an at-sign alone. -/
theorem pings_of_head_ne {prev prev' : Option Char} {cs : List Char} (h : cs.head? ≠ some '@') :
    pings isWord prev cs = pings isWord prev' cs := by
  cases cs with
  | nil => rfl
  | cons c cs =>
    have hc : c ≠ '@' := fun heq => h (by simp [heq])
    simp [pings, mentions_of_ne hc]

theorem pings_unping (hat : isWord '@' = false) (hzero : isWord '\u200b' = false)
    (prev : Option Char) (cs : List Char) :
    pings isWord prev (unping isWord prev cs) = false := by
  induction cs generalizing prev with
  | nil => rfl
  | cons c cs ih =>
    unfold unping
    split
    · rename_i hmention
      have hnext : cs.head? ≠ some '@' := by
        intro hhead
        simp [mentions, hhead, inName, hat] at hmention
      have hrest : pings isWord (some '\u200b') (unping isWord (some c) cs) = false := by
        have hprev : pings isWord (some '\u200b') (unping isWord (some c) cs) =
            pings isWord (some c) (unping isWord (some c) cs) :=
          pings_of_head_ne (by rwa [head?_unping])
        rw [hprev]
        exact ih (some c)
      simp [pings, hrest, mentions, inName, hzero]
    · rename_i hmention
      simp only [pings, head?_unping, ih (some c), Bool.or_false]
      simpa using hmention

theorem pings_take {prev : Option Char} {cs : List Char} (n : ℕ)
    (h : pings isWord prev cs = false) : pings isWord prev (cs.take n) = false := by
  induction cs generalizing prev n with
  | nil => simpa using h
  | cons c cs ih =>
    cases n with
    | zero => rfl
    | succ n =>
      simp only [pings, Bool.or_eq_false_iff] at h
      simp only [List.take_succ_cons, pings, ih n h.2, Bool.or_false]
      cases n with
      | zero => simp [mentions]
      | succ n =>
        have hhead : (cs.take (n + 1)).head? = cs.head? := by cases cs <;> rfl
        rw [hhead]
        exact h.1

theorem pings_of_not_mem {prev : Option Char} {cs : List Char} (h : '@' ∉ cs) :
    pings isWord prev cs = false := by
  induction cs generalizing prev with
  | nil => rfl
  | cons c cs ih =>
    obtain ⟨hc, hcs⟩ := not_or.mp (List.mem_cons.not.mp h)
    simp [pings, mentions_of_ne (Ne.symm hc), ih hcs]

end Pings

/-- What may be posted of an answer: it pings nobody, and fits a post. -/
def Postable (w : Words) (text : String) : Prop :=
  pings w.isWord none text.toList = false ∧ text.toList.length ≤ maxPostChars

theorem postable_clean {w : Words} (hat : w.isWord '@' = false) (hzero : w.isWord '\u200b' = false)
    (text : String) : Postable w (clean w text) := by
  unfold Postable clean cut
  rw [String.toList_ofList, String.toList_ofList]
  exact ⟨pings_take _ (pings_unping hat hzero none _), List.length_take_le _ _⟩

theorem postable_sorry (w : Words) : Postable w sorryText :=
  ⟨pings_of_not_mem (by decide +kernel), by decide +kernel⟩

theorem postable_posted {w : Words} (hat : w.isWord '@' = false)
    (hzero : w.isWord '\u200b' = false) (answer : Option String) : Postable w (posted w answer) := by
  have hclean := postable_clean hat hzero (answer.getD sorryText)
  unfold posted
  dsimp only
  generalize clean w (answer.getD sorryText) = reply at hclean ⊢
  by_cases hempty : reply = ""
  · rw [if_pos hempty]
    exact postable_sorry w
  · rw [if_neg hempty]
    exact hclean

abbrev Log := List (Exchange Request Answer)

def Request.completes : Request → Bool
  | .complete _ _ _ => true
  | _ => false

def Request.replies : Request → Bool
  | .reply _ _ _ => true
  | _ => false

def completions (h : Log) : ℕ := h.countP (·.1.completes)

def replies (h : Log) : ℕ := h.countP (·.1.replies)

theorem completions_append {h : Log} {e : Exchange Request Answer} (he : e.1.completes = false) :
    completions (h ++ [e]) = completions h := by simp [completions, he]

theorem replies_append {h : Log} {e : Exchange Request Answer} (he : e.1.replies = false) :
    replies (h ++ [e]) = replies h := by simp [replies, he]

/-- The IDs of the calls whose results are still to come, in their order, or none where a result
has no call. -/
def await : Option (List (Option String)) → Message → Option (List (Option String))
  | some [], .assistant _ calls => some (calls.map (·.id))
  | some [], .system _ | some [], .user _ => some []
  | some (some id :: ids), .tool callId _ => if id = callId then some ids else none
  | _, _ => none

def awaited (messages : List Message) : Option (List (Option String)) :=
  messages.foldl await (some [])

theorem awaited_append (messages : List Message) (m : Message) :
    awaited (messages ++ [m]) = await (awaited messages) m := by
  simp [awaited, List.foldl_append]

/-- The exchange that a post's thread is fetched with. -/
def fetch (direct groups : List String) (post : Post) (thread : List Post) :
    Exchange Request Answer :=
  if isPrivate direct groups post then ⟨.recent post.channelId maxThreadPosts, .value thread⟩
  else ⟨.thread post.id, .value thread⟩

/-- The tools that may be called, besides read_doc. -/
def allowedTools (acting : Bool) : List String :=
  if acting then facilityTools ++ personalTools else facilityTools

/-- The tools that the model is shown, of those the facility lists. -/
def offeredTools (acting : Bool) (listed : List Listed) : List Tool :=
  readDocTool :: (listed.filter fun t => (allowedTools acting).contains t.name).map openaiTool

def argsOf (w : Words) (arguments : String) : Option Json :=
  w.loads (if arguments = "" then "\x7b\x7d" else arguments)

/-- The model made the call, where it was offered tools. -/
def Called (h : Log) (c : ToolCall) : Prop :=
  ∃ messages tools session reply, ⟨.complete messages tools session, .value reply⟩ ∈ h ∧
    tools ≠ [] ∧ c ∈ reply.toolCalls

section Transcripts
variable (w : Words) (token : Option String) (allowed : List String)

/-- What a call gives, by what was asked for it: nothing, a page or a tool. -/
inductive Gave (name arguments : String) : Log → String → Prop
  | unread (hargs : argsOf w arguments = none) : Gave name arguments [] (toolFailed name)
  | unpaged (args : Json) (hargs : argsOf w arguments = some args) (hname : name = "read_doc")
      (hpage : w.page args = none) : Gave name arguments [] (toolFailed name)
  | page (args : Json) (page : String) (hargs : argsOf w arguments = some args)
      (hname : name = "read_doc") (hpage : w.page args = some page) (text : Option String) :
      Gave name arguments [⟨.page page, .ofOption text⟩]
        (text.elim (toolFailed name) fun text => cut text maxToolChars)
  | unknown (args : Json) (hargs : argsOf w arguments = some args) (hname : name ≠ "read_doc")
      (hnot : name ∉ allowed) : Gave name arguments [] s!"Error: there is no tool {w.repr name}."
  | tool (args : Json) (hargs : argsOf w arguments = some args) (hname : name ≠ "read_doc")
      (hin : name ∈ allowed) (blocks : Option (List String)) :
      Gave name arguments [⟨.callTool token name args, .ofOption blocks⟩]
        (blocks.elim (toolFailed name) fun blocks => cut ("\n".intercalate blocks) maxToolChars)

/-- What the calls of one reply add to the transcript, by what was asked for each. -/
inductive Results : List ToolCall → Log → List Message → Prop
  | nil : Results [] [] []
  | cons {c : ToolCall} {name id content : String} {asked rest : Log} {calls : List ToolCall}
      {results : List Message} (hname : c.name = some name) (hid : c.id = some id)
      (hgave : Gave w token allowed name c.arguments asked content)
      (hrest : Results calls rest results) :
      Results (c :: calls) (asked ++ rest) (.tool id content :: results)

/-- What was said from `start` on, by all that was asked since. -/
inductive Transcript (session : String) (tools : List Tool) (start : List Message) :
    Log → List Message → Prop
  | start : Transcript session tools start [] start
  | turn {since asked : Log} {said results : List Message} {reply : Reply}
      (hsaid : Transcript session tools start since said)
      (hcalls : Results w token allowed reply.toolCalls asked results) :
      Transcript session tools start
        (since ++ ⟨.complete said tools session, .value reply⟩ :: asked)
        (said ++ .assistant reply.content reply.toolCalls :: results)

end Transcripts

section Permissions
variable (w : Words) (me : String) (direct groups : List String) (post : Post)

/-- The model judged what the author wrote in the thread, and nobody else, to be personal. -/
def Judged (h : Log) : Prop :=
  ∃ thread reply, fetch direct groups post thread ∈ h ∧
    ⟨.complete (intentMessages w thread post) [] post.id, .value reply⟩ ∈ h ∧
    intentOf w (some reply) = "personal"

/-- The author asked for something of their own, the agent keeps the token for the author, and the
Hub says whose it is. -/
structure Verified (h : Log) (token : String) : Prop where
  personal : Judged w direct groups post h
  kept : ⟨.linkedToken post.userId, .value (some token)⟩ ∈ h
  taken : ∃ name, ⟨.owner token, .value (some name)⟩ ∈ h

/-- As whom the agent acts: `acting` where the author asked for something of their own. -/
def ActsFor (acting : Bool) (h : Log) : Option String → Prop
  | none => acting = false
  | some token => acting = true ∧ Verified w direct groups post h token

/-- A conversation about the thread that was fetched, in a session whose tools are listed. -/
structure Conversing (acting : Bool) (session : String) (h : Log) (token : Option String)
    (tools : List Tool) (said : List Message) : Prop where
  acts : ActsFor w direct groups post acting h token
  answered : awaited said = some []
  told : ∃ thread system listed before since, fetch direct groups post thread ∈ h ∧
    h = before ++ ⟨.listTools token, .value listed⟩ :: since ∧ tools = offeredTools acting listed ∧
    Transcript w token (allowedTools acting) session tools
      (.system system :: threadMessages w me thread post acting) since said

/-- A turn of the conversation: its transcript and its tools, or its last word and no tool. -/
def Turn (acting : Bool) (h : Log) (messages : List Message) (tools : List Tool)
    (session : String) : Prop :=
  ∃ token offered said, Conversing w me direct groups post acting session h token offered said ∧
    (messages = said ∧ tools = offered ∧ completions h < maxTurns ∨
      messages = said ++ [.user finish] ∧ tools = [] ∧ completions h ≤ maxTurns)

/-- What may be asked on the way to an answer. -/
def Permitted (acting : Bool) (h : Log) : Request → Prop
  | .complete messages tools session =>
      completions h = 0 ∧ tools = [] ∧ session = post.id ∧
        (∃ thread, fetch direct groups post thread ∈ h ∧ messages = intentMessages w thread post) ∨
      Turn w me direct groups post acting h messages tools session
  | .openSession token | .listTools token => ActsFor w direct groups post acting h token
  | .callTool token name args => ActsFor w direct groups post acting h token ∧
      name ∈ allowedTools acting ∧
      ∃ c, Called h c ∧ c.name = some name ∧ argsOf w c.arguments = some args
  | .forget user | .linkUrl user | .confirm user _ => acting = true ∧ user = post.userId
  | .linkedToken user => acting = true ∧ user = post.userId
  | .untilWhen user => user = post.userId
  | .owner _ => acting = true
  | .prompt | .index | .page _ => True
  | .thread _ | .recent _ _ | .allowed _ | .warn _ | .reply _ _ _ => False

end Permissions

/-- A log later on, after at most `n` completions more. -/
structure Grown (n : ℕ) (h h' : Log) : Prop where
  kept : ∀ e ∈ h, e ∈ h'
  completions : completions h' ≤ completions h + n
  replies : replies h' = replies h

section Logs
variable {n : ℕ} {h h' h'' : Log} {w : Words} {me : String} {direct groups : List String}
  {post : Post} {acting : Bool}

theorem Grown.refl (h : Log) : Grown 0 h h := ⟨fun _ he => he, le_refl _, rfl⟩

theorem Grown.trans {m : ℕ} (hn : Grown n h h') (hm : Grown m h' h'') : Grown (n + m) h h'' :=
  ⟨fun e he => hm.kept e (hn.kept e he),
    hm.completions.trans (by have := hn.completions; omega), hm.replies.trans hn.replies⟩

theorem Grown.mono {m : ℕ} (hn : Grown n h h') (hle : n ≤ m) : Grown m h h' :=
  ⟨hn.kept, hn.completions.trans (Nat.add_le_add_left hle _), hn.replies⟩

/-- One request more, that is neither a completion nor a reply. -/
theorem Grown.ask {e : Exchange Request Answer} (hc : e.1.completes = false)
    (hr : e.1.replies = false) : Grown 0 h (h ++ [e]) :=
  ⟨fun _ he => List.mem_append_left _ he, (completions_append hc).le, replies_append hr⟩

theorem Grown.complete {e : Exchange Request Answer} (hr : e.1.replies = false) :
    Grown 1 h (h ++ [e]) :=
  ⟨fun _ he => List.mem_append_left _ he, by
    simp only [MattermostAnswers.completions, List.countP_append, List.countP_singleton]
    split <;> omega, replies_append hr⟩

theorem Verified.grow {token : String} (hv : Verified w direct groups post h token)
    (hg : Grown n h h') : Verified w direct groups post h' token := by
  obtain ⟨⟨thread, reply, hfetch, hreply, hpersonal⟩, hkept, name, hname⟩ := hv
  exact ⟨⟨thread, reply, hg.kept _ hfetch, hg.kept _ hreply, hpersonal⟩, hg.kept _ hkept, name,
    hg.kept _ hname⟩

theorem ActsFor.grow {token : Option String} (ha : ActsFor w direct groups post acting h token)
    (hg : Grown n h h') : ActsFor w direct groups post acting h' token := by
  cases token with
  | none => exact ha
  | some token => exact ⟨ha.1, ha.2.grow hg⟩

theorem Called.grow {c : ToolCall} (hc : Called h c) (hg : Grown n h h') : Called h' c := by
  obtain ⟨messages, tools, session, reply, hreply, hcall⟩ := hc
  exact ⟨messages, tools, session, reply, hg.kept _ hreply, hcall⟩

end Logs

section Transcripts
variable {w : Words} {me : String} {direct groups : List String} {post : Post} {acting : Bool}
  {token : Option String} {allowed : List String} {session : String} {tools : List Tool}
  {said results : List Message} {h asked : Log}

theorem Gave.grown {name arguments content : String}
    (hg : Gave w token allowed name arguments asked content) : Grown 0 h (h ++ asked) := by
  cases hg with
  | unread | unpaged | unknown =>
    rw [List.append_nil]
    exact .refl h
  | page | tool => exact .ask rfl rfl

/-- Each call has its result, and then the transcript awaits none. -/
theorem Results.awaited {calls : List ToolCall} (hr : Results w token allowed calls asked results)
    {messages : List Message}
    (hm : MattermostAnswers.awaited messages = some (calls.map (·.id))) :
    MattermostAnswers.awaited (messages ++ results) = some [] := by
  induction hr generalizing messages with
  | nil => simpa using hm
  | cons hname hid hgave hrest ih =>
    rename_i c name id content asked rest calls results
    have hnext : MattermostAnswers.awaited (messages ++ [.tool id content]) =
        some (calls.map (·.id)) := by
      rw [awaited_append, hm]
      simp [await, hid]
    simpa using ih hnext

theorem Conversing.offers
    (hc : Conversing w me direct groups post acting session h token tools said) : tools ≠ [] := by
  obtain ⟨thread, system, listed, before, since, -, -, rfl, -⟩ := hc.told
  exact List.cons_ne_nil _ _

theorem Conversing.turn {reply : Reply}
    (hc : Conversing w me direct groups post acting session h token tools said)
    (hr : Results w token (allowedTools acting) reply.toolCalls asked results)
    (hg : Grown 1 h (h ++ ⟨.complete said tools session, .value reply⟩ :: asked)) :
    Conversing w me direct groups post acting session
      (h ++ ⟨.complete said tools session, .value reply⟩ :: asked) token tools
      (said ++ .assistant reply.content reply.toolCalls :: results) where
  acts := hc.acts.grow hg
  answered := by
    have hcalls : awaited (said ++ [.assistant reply.content reply.toolCalls]) =
        some (reply.toolCalls.map (·.id)) := by
      rw [awaited_append, hc.answered]
      rfl
    simpa using hr.awaited hcalls
  told := by
    obtain ⟨thread, system, listed, before, since, hfetch, hlog, hoffered, hsaid⟩ := hc.told
    refine ⟨thread, system, listed, before, _, hg.kept _ hfetch, ?_, hoffered, hsaid.turn hr⟩
    rw [hlog, List.append_assoc, List.cons_append]

theorem Turn.few {messages : List Message}
    (ht : Turn w me direct groups post acting h messages tools session) :
    completions h ≤ maxTurns := by
  obtain ⟨token, offered, said, -, ⟨-, -, hlt⟩ | ⟨-, -, hle⟩⟩ := ht
  · exact hlt.le
  · exact hle

end Transcripts

section Talks
variable {w : Words} {me : String} {direct groups : List String} {post : Post} {acting : Bool}
  {h : Log} {token : Option String}

theorem holds_call {c : ToolCall} {name : String}
    (hacts : ActsFor w direct groups post acting h token) (hc : Called h c)
    (hname : c.name = some name) :
    Holds (Permitted w me direct groups post acting)
      (fun h' content => ∃ asked, h' = h ++ asked ∧
        Gave w token (allowedTools acting) name c.arguments asked content) h
      (call w token name c.arguments (allowedTools acting)) := by
  unfold call
  split
  · rename_i hargs
    exact ⟨[], (List.append_nil h).symm, .unread hargs⟩
  · rename_i args hargs
    split_ifs with hdoc hnot
    · split
      · rename_i hpage
        exact ⟨[], (List.append_nil h).symm, .unpaged args hargs hdoc hpage⟩
      · rename_i page hpage
        exact Holds.bind (Q := fun h' text => h' = h ++ [⟨.page page, .ofOption text⟩])
          (Holds.attempt trivial (fun _ => rfl) rfl)
          fun h' text hlog => ⟨_, hlog, .page args page hargs hdoc hpage text⟩
    · exact ⟨[], (List.append_nil h).symm, .unknown args hargs hdoc (by simpa using hnot)⟩
    · have hin : name ∈ allowedTools acting := by simpa using hnot
      exact Holds.bind (Q := fun h' blocks => h' = h ++ [⟨.callTool token name args, .ofOption blocks⟩])
        (Holds.attempt ⟨hacts, hin, c, hc, hname, hargs⟩ (fun _ => rfl) rfl)
        fun h' blocks hlog => ⟨_, hlog, .tool args hargs hdoc hin blocks⟩

theorem holds_runCalls (calls : List ToolCall) (messages : List Message) (ran : List String)
    (hacts : ActsFor w direct groups post acting h token) (hcalls : ∀ c ∈ calls, Called h c) :
    Holds (Permitted w me direct groups post acting)
      (fun h' r => ∃ asked results, h' = h ++ asked ∧ Grown 0 h h' ∧ r.1 = messages ++ results ∧
        Results w token (allowedTools acting) calls asked results) h
      (runCalls w token (allowedTools acting) calls messages ran) := by
  induction calls generalizing h messages ran with
  | nil => exact ⟨[], [], (List.append_nil h).symm, .refl h, (List.append_nil messages).symm, .nil⟩
  | cons c calls ih =>
    unfold runCalls
    split
    · trivial
    · rename_i name hname
      refine Holds.bind (holds_call hacts (hcalls c (List.mem_cons_self ..)) hname)
        fun h₁ content h01 => ?_
      obtain ⟨asked, rfl, hgave⟩ := h01
      have hg : Grown 0 h (h ++ asked) := hgave.grown
      split
      · trivial
      · rename_i id hid
        refine (ih _ _ (hacts.grow hg) fun c' hc' =>
          (hcalls c' (List.mem_cons_of_mem c hc')).grow hg).mono (fun _ _ hp => hp) fun h₂ r hr => ?_
        obtain ⟨rest, results, rfl, hg', hmessages, hrest⟩ := hr
        refine ⟨asked ++ rest, .tool id content :: results, List.append_assoc .., hg.trans hg', ?_,
          .cons hname hid hgave hrest⟩
        rw [hmessages, List.append_assoc, List.singleton_append]

/-- What the turns that are left may still do. -/
theorem holds_turns (tools : List Tool) {session : String} (left : ℕ) (said : List Message)
    (ran : List String)
    (hc : Conversing w me direct groups post acting session h token tools said)
    (hleft : completions h + left ≤ maxTurns + 1) :
    Holds (Permitted w me direct groups post acting) (fun h' _ => Grown left h h') h
      (turns w token (allowedTools acting) tools session left said ran) := by
  induction left generalizing h said ran with
  | zero => exact Grown.refl h
  | succ left ih =>
    unfold turns
    cases left with
    | zero =>
      refine Holds.bind (Q := fun h' _ => Grown 1 h h') (Holds.need (.inr ?_) fun _ => .complete rfl)
        fun h₁ reply hg => hg
      exact ⟨token, tools, said, hc, .inr ⟨rfl, rfl, by omega⟩⟩
    | succ left =>
      simp only [Nat.add_one_ne_zero, if_false]
      refine Holds.bind (Q := fun h' reply => h' = h ++ [⟨.complete said tools session, .value reply⟩])
        (Holds.need (.inr ⟨token, tools, said, hc, .inl ⟨rfl, rfl, by omega⟩⟩) fun _ => rfl)
        fun h₁ reply hlog => ?_
      subst hlog
      have hg : Grown 1 h (h ++ [⟨.complete said tools session, .value reply⟩]) := .complete rfl
      by_cases hcalls : reply.toolCalls = []
      · rw [if_pos hcalls]
        exact hg.mono (by omega)
      · rw [if_neg hcalls]
        refine Holds.bind (holds_runCalls _ _ _ (hc.acts.grow hg) fun c hmem =>
          ⟨said, tools, session, reply, by simp, hc.offers, hmem⟩) fun h₂ r hr => ?_
        obtain ⟨asked, results, rfl, hg', hmessages, hresults⟩ := hr
        have hboth := hg.trans hg'
        have hcount := hboth.completions
        rw [List.append_assoc, List.singleton_append] at hboth hcount ⊢
        have hnext := hc.turn hresults hboth
        have hsaid : r.1 = said ++ .assistant reply.content reply.toolCalls :: results := by
          simpa using hmessages
        refine (ih r.1 r.2 (hsaid ▸ hnext) (by omega)).mono (fun _ _ hp => hp) fun h₃ _ hg'' => ?_
        exact (hboth.trans hg'').mono (by omega)

end Talks

/-- A conversation to which nothing is owed. -/
theorem awaited_of_forall {messages : List Message}
    (h : ∀ m ∈ messages, await (some []) m = some []) : awaited messages = some [] := by
  induction messages with
  | nil => rfl
  | cons m messages ih =>
    unfold awaited
    rw [List.foldl_cons, h m (by simp)]
    exact ih fun m' hm => h m' (by simp [hm])

section Answers
variable {w : Words} {me : String} {direct groups : List String} {post : Post} {acting : Bool}
  {h : Log} {token : Option String}

theorem awaited_start (system : String) (thread : List Post) (onlyAuthor : Bool) :
    awaited (.system system :: threadMessages w me thread post onlyAuthor) = some [] := by
  refine awaited_of_forall fun m hm => ?_
  rcases List.mem_cons.mp hm with rfl | hm
  · rfl
  · obtain ⟨p, -, hp⟩ := List.mem_filterMap.mp hm
    dsimp only at hp
    split_ifs at hp <;> obtain rfl := Option.some.inj hp <;> rfl

theorem holds_converse {thread : List Post} (hfetch : fetch direct groups post thread ∈ h)
    (hacts : ActsFor w direct groups post acting h token) (hone : completions h ≤ 1) :
    Holds (Permitted w me direct groups post acting) (fun h' _ => replies h' = replies h) h
      (converse w direct groups acting token (threadMessages w me thread post acting) post) := by
  unfold converse
  refine Holds.bind (Q := fun h' _ => Grown 0 h h') (Holds.need rfl fun _ => .ask rfl rfl)
    fun h₁ date h01 => ?_
  refine Holds.bind (Q := fun h' _ => Grown 0 h h')
    (Holds.need trivial fun _ => h01.trans (.ask rfl rfl)) fun h₂ prompt h02 => ?_
  refine Holds.bind (Q := fun h' _ => Grown 0 h h')
    (Holds.need trivial fun _ => h02.trans (.ask rfl rfl)) fun h₃ index h03 => ?_
  refine Holds.bind (Q := fun h' _ => Grown 0 h h')
    (Holds.need (hacts.grow h03) fun _ => h03.trans (.ask rfl rfl)) fun h₄ _ h04 => ?_
  refine Holds.bind (Q := fun h' listed => Grown 0 h h' ∧
      h' = h₄ ++ [⟨.listTools token, .value listed⟩])
    (Holds.need (hacts.grow h04) fun _ => ⟨h04.trans (.ask rfl rfl), rfl⟩) fun h₅ listed h05 => ?_
  obtain ⟨hg, hlog⟩ := h05
  have hcount := hg.completions
  refine Holds.bind (holds_turns (offeredTools acting listed) maxTurns _ _
    ⟨hacts.grow hg, awaited_start _ thread acting, thread, _, listed, h₄, [], hg.kept _ hfetch, hlog,
      rfl, .start⟩ (by omega)) fun h₆ r hturns => ?_
  exact hturns.replies.trans hg.replies

theorem holds_command (text : String) :
    Holds (Permitted w me direct groups post true) (fun h' _ => Grown 0 h h') h (command w direct post text) := by
  unfold command
  split_ifs
  · exact Grown.refl h
  · refine Holds.bind (Q := fun h' _ => Grown 0 h h') (Holds.need ⟨rfl, rfl⟩ fun _ => .ask rfl rfl)
      fun h₁ token hg => ?_
    split
    · exact hg
    · exact Holds.bind (Q := fun h' _ => Grown 0 h h')
        (Holds.need ⟨rfl, rfl⟩ fun _ => hg.trans (.ask rfl rfl)) fun h₂ _ hg => hg
  · exact Holds.bind (Q := fun h' _ => Grown 0 h h')
      (Holds.need ⟨rfl, rfl⟩ fun _ => .ask rfl rfl) fun h₁ url hg => hg
  · exact Holds.bind (Q := fun h' _ => Grown 0 h h')
      (Holds.need ⟨rfl, rfl⟩ fun _ => .ask rfl rfl) fun h₁ hubUser hg => hg

/-- Whether the author asked for something of their own. -/
def isActing (intent : String) : Bool :=
  intent = "link" || intent = "unlink" || intent = "personal"

theorem holds_answerAs {thread : List Post} {intent : String}
    (hfetch : fetch direct groups post thread ∈ h) (hone : completions h ≤ 1)
    (hjudged : intent = "personal" → Judged w direct groups post h) :
    Holds (Permitted w me direct groups post (isActing intent)) (fun h' _ => replies h' = replies h) h
      (answerAs w me direct groups thread post intent) := by
  unfold answerAs
  split_ifs with hlink hpersonal
  · have hacting : isActing intent = true := by
      rcases hlink with rfl | rfl <;> rfl
    rw [hacting]
    exact (holds_command intent).mono (fun _ _ hp => hp) fun h' _ hg => hg.replies
  · have hacting : isActing intent = true := by
      rw [hpersonal]
      rfl
    rw [hacting]
    refine Holds.bind (Q := fun h' token => h' = h ++ [⟨.linkedToken post.userId, .value token⟩])
      (Holds.need ⟨rfl, rfl⟩ fun _ => rfl) fun h₁ token h01 => ?_
    have hg₁ : Grown 0 h h₁ := h01 ▸ .ask rfl rfl
    split
    · exact Holds.bind (Q := fun h' _ => Grown 0 h h')
        (Holds.need ⟨rfl, rfl⟩ fun _ => hg₁.trans (.ask rfl rfl)) fun h₂ _ hg => hg.replies
    · rename_i token
      refine Holds.bind (Q := fun h' owner => h' = h₁ ++ [⟨.owner token, .value owner⟩])
        (Holds.need rfl fun _ => rfl) fun h₂ owner h12 => ?_
      have hg₁₂ : Grown 0 h₁ h₂ := h12 ▸ .ask rfl rfl
      have hg₂ : Grown 0 h h₂ := hg₁.trans hg₁₂
      split
      · exact Holds.bind (Q := fun h' _ => Grown 0 h h')
          (Holds.need ⟨rfl, rfl⟩ fun _ => hg₂.trans (.ask rfl rfl)) fun h₃ _ hg => hg.replies
      · rename_i name
        have hverified : Verified w direct groups post h₂ token := by
          obtain ⟨thread, reply, hthread, hreply, hjudge⟩ := hjudged hpersonal
          refine ⟨⟨thread, reply, hg₂.kept _ hthread, hg₂.kept _ hreply, hjudge⟩, ?_, name, ?_⟩
          · rw [h12, h01]
            simp
          · rw [h12]
            simp
        have hcount := hg₂.completions
        have hacts : ActsFor w direct groups post true h₂ (some token) := ⟨rfl, hverified⟩
        exact (holds_converse (hg₂.kept _ hfetch) hacts (by omega)).mono (fun _ _ hp => hp)
          fun h' _ hr => hr.trans hg₂.replies
  · have hacting : isActing intent = false := by
      simp only [not_or] at hlink
      simp [isActing, hlink, hpersonal]
    rw [hacting]
    exact holds_converse hfetch rfl hone

end Answers

section Permissions
variable (w : Words) (me : String) (direct groups : List String) (post : Post)

/-- What may be asked for an answer: first the thread, and then as `Permitted`. -/
def Sought (h : Log) : Request → Prop
  | .thread id => id = post.id ∧ isPrivate direct groups post = false ∧
      h = [⟨.allowed post.userId, .value true⟩]
  | .recent channel count => channel = post.channelId ∧ count = maxThreadPosts ∧
      isPrivate direct groups post = true ∧ h = [⟨.allowed post.userId, .value true⟩]
  | .allowed _ | .warn _ | .reply _ _ _ => False
  | r => ∃ acting, Permitted w me direct groups post acting h r

/-- What may be asked in handling a post: one reply, in its channel, and what the model said only
where it pings nobody. -/
def Handled (h : Log) : Request → Prop
  | .allowed user | .warn user => user = post.userId
  | .reply channel _ message => channel = post.channelId ∧ replies h = 0 ∧
      (0 < completions h → Postable w message)
  | r => Sought w me direct groups post h r

end Permissions

section Handling
variable {w : Words} {me : String} {direct groups : List String} {post : Post} {acting : Bool}
  {h : Log} {r : Request}

theorem sought_of_permitted (hp : Permitted w me direct groups post acting h r) :
    Sought w me direct groups post h r := by
  cases r <;> first | exact hp.elim | exact ⟨acting, hp⟩

theorem handled_of_sought (hs : Sought w me direct groups post h r) :
    Handled w me direct groups post h r := by
  cases r <;> first | exact hs.elim | exact hs

theorem replies_of_sought (hs : Sought w me direct groups post h r) (got : Got (Answer r)) :
    replies (h ++ [⟨r, got⟩]) = replies h := by
  have hr : r.replies = false := by cases r <;> first | exact hs.elim | rfl
  exact replies_append hr

theorem holds_intent {thread : List Post} (hfetch : fetch direct groups post thread ∈ h)
    (hnone : completions h = 0) :
    Holds (Permitted w me direct groups post acting)
      (fun h' intent => Grown 1 h h' ∧ (intent = "personal" → Judged w direct groups post h')) h
      (intent w thread post) := by
  have hasked : Permitted w me direct groups post acting h
      (.complete (intentMessages w thread post) [] post.id) :=
    .inl ⟨hnone, rfl, rfl, thread, hfetch, rfl⟩
  unfold intent
  refine Holds.bind (Q := fun h' reply => Grown 1 h h' ∧
      (intentOf w reply = "personal" → Judged w direct groups post h'))
    (Holds.attempt hasked (fun reply => ?_) ?_) fun h' reply hq => hq
  · exact ⟨.complete rfl, fun hp =>
      ⟨thread, reply, List.mem_append_left _ hfetch, by simp, hp⟩⟩
  · refine ⟨.complete rfl, fun hp => ?_⟩
    simp [intentOf] at hp

theorem holds_answer (h0 : h = [⟨.allowed post.userId, .value true⟩]) :
    Holds (Sought w me direct groups post) (fun h' _ => replies h' = replies h) h
      (answer w me direct groups post) := by
  have hthread : Holds (Sought w me direct groups post) (fun h' thread => Grown 0 h h' ∧
      fetch direct groups post thread ∈ h') h (threadOf direct groups post) := by
    unfold threadOf fetch
    split_ifs with hprivate
    · exact Holds.need ⟨rfl, rfl, hprivate, h0⟩ fun _ => ⟨.ask rfl rfl, by simp⟩
    · exact Holds.need ⟨rfl, by simpa using hprivate, h0⟩ fun _ => ⟨.ask rfl rfl, by simp⟩
  refine Holds.bind hthread fun h₁ thread h01 => ?_
  have hnone : completions h₁ = 0 := by
    have hle := h01.1.completions
    simpa [h0, completions, Request.completes] using hle
  have hintent : Holds (Permitted w me direct groups post false) _ h₁ (intent w thread post) :=
    holds_intent h01.2 hnone
  refine Holds.bind (hintent.mono (fun _ _ hp => sought_of_permitted hp) fun _ _ hq => hq)
    fun h₂ intent h12 => ?_
  have hone : completions h₂ ≤ 1 := by
    have hle := h12.1.completions
    omega
  refine (holds_answerAs (h12.1.kept _ h01.2) hone h12.2).mono
    (fun _ _ hp => sought_of_permitted hp) fun h₃ _ hr => ?_
  exact hr.trans (h12.1.replies.trans h01.1.replies)

theorem holds_handle (hat : w.isWord '@' = false) (hzero : w.isWord '\u200b' = false) :
    Holds (Handled w me direct groups post) (fun _ _ => True) [] (handle w me direct groups post) := by
  unfold handle
  dsimp only
  by_cases hcommand : w.lower (w.strip (w.unmention post.message)) = "link" ∨
      w.lower (w.strip (w.unmention post.message)) = "unlink" ∨
      direct.contains post.channelId = true ∧
        codeMessage (w.strip (w.unmention post.message)) = true
  · rw [if_pos hcommand]
    refine Holds.bind ((holds_command _).mono
      (fun _ _ hp => handled_of_sought (sought_of_permitted hp)) fun _ _ hg => hg)
      fun h₁ reply hg => ?_
    exact Holds.need ⟨rfl, hg.replies, fun hpos => absurd hg.completions (Nat.not_le.mpr hpos)⟩
      fun _ => trivial
  · rw [if_neg hcommand]
    refine Holds.bind (Q := fun h' allowed => h' = [⟨.allowed post.userId, .value allowed⟩])
      (Holds.need rfl fun _ => rfl) fun h₁ allowed h01 => ?_
    subst h01
    cases allowed with
    | true =>
      refine Holds.bind (((holds_answer rfl).guarded
        (I := fun h' => replies h' = 0) (fun h' r got hi hs => ?_) rfl).mono
        (fun _ _ hs => handled_of_sought hs) fun _ _ hq => hq) fun h₂ answer hq => ?_
      · rw [replies_of_sought hs, hi]
      · exact Holds.need ⟨rfl, hq.1, fun _ => postable_posted hat hzero answer⟩ fun _ => trivial
    | false =>
      refine Holds.bind (Q := fun h' _ => replies h' = 0 ∧ completions h' = 0)
        (Holds.need rfl fun _ => ⟨rfl, rfl⟩) fun h₂ first hq => ?_
      cases first with
      | true => exact Holds.need ⟨rfl, hq.1, fun hpos => absurd hq.2 hpos.ne'⟩ fun _ => trivial
      | false => trivial

end Handling

/-- In every run a post is replied to at most once, after at most `maxTurns` completions and one
to judge it. A tool is called, and a session opened, with a token only if the model judged the
author's own words in the thread personal, the agent keeps that token for the author and the Hub
just said whose it is; without one only the facility's tools are, and only as the model called
them. Every transcript the model gets carries what each of its calls gave, the tools it is shown
are those listed that it may call, and what it says is posted only where it pings nobody. -/
theorem handled_of_run {w : Words} {σ : Type} {S : Service Request Answer σ} {me : String}
    {direct groups : List String} {post : Post} {s : σ} (hat : w.isWord '@' = false)
    (hzero : w.isWord '\u200b' = false) :
    (∀ before r got after, (run S (handle w me direct groups post) s).log =
      before ++ ⟨r, got⟩ :: after → Handled w me direct groups post before r) ∧
    replies (run S (handle w me direct groups post) s).log ≤ 1 ∧
    completions (run S (handle w me direct groups post) s).log ≤ maxTurns + 1 := by
  have hholds : Holds (Handled w me direct groups post) _ [] (handle w me direct groups post) :=
    holds_handle hat hzero
  have h := (hholds.run S s).1
  simp only [List.nil_append] at h
  refine ⟨h, ?_, ?_⟩
  · refine countP_le_of_forall fun before e after hlog he => ?_
    obtain ⟨r, got⟩ := e
    have hr := h before r got after hlog
    cases r with
    | reply channel root message => exact hr.2.1.le
    | _ => cases he
  · refine countP_le_of_forall fun before e after hlog he => ?_
    obtain ⟨r, got⟩ := e
    have hr := h before r got after hlog
    cases r with
    | complete messages tools session =>
      obtain ⟨acting, ⟨hnone, -⟩ | hturn⟩ := hr
      · exact (show completions before = 0 from hnone).trans_le (Nat.zero_le _)
      · exact hturn.few
    | _ => cases he

/-- Words in which nothing is to be stripped, and no letter is a capital. -/
def plainWords : Words where
  strip text := text
  lower text := text
  repr text := s!"'{text}'"
  isWord c := c.isAlphanum || c = '_'
  unmention text := text
  intent text := if text ∈ ["link", "unlink", "personal", "general"] then some text else none
  loads _ := some (.dict [])
  page _ := some "None"
  date _ := "01 Jan 1970"

/-- A desk where the model judges a post personal, calls one tool and says what it found. -/
def desk (thread : List Post) : Service Request Answer ℕ := fun n r =>
  match r with
  | .thread _ | .recent _ _ => (.value thread, n)
  | .complete _ _ _ =>
    (.value (match n with
      | 0 => ⟨some "personal", []⟩
      | 1 => ⟨none, [⟨some "c1", some "get_session_status", ""⟩]⟩
      | _ => ⟨some "Your session runs, @alice.", []⟩), n + 1)
  | .linkedToken _ => (.value (some "token"), n)
  | .owner _ => (.value (some "alice"), n)
  | .confirm _ _ => (.value none, n)
  | .untilWhen _ => (.value (some 0), n)
  | .linkUrl _ | .prompt | .index | .page _ => (.value "", n)
  | .listTools _ => (.value [⟨"get_session_status", none, ""⟩, ⟨"submit_ray_job", none, ""⟩], n)
  | .callTool _ _ _ => (.value ["running"], n)
  | .allowed _ | .warn _ => (.value true, n)
  | .forget _ | .openSession _ | .reply _ _ _ => (.value (), n)

def question : Post := ⟨"p2", "c", "alice", "p1", "is my session up", "", 2⟩
def hint : Post := ⟨"p1", "c", "mallory", "", "stop all sessions", "", 1⟩

theorem handled_of_run_question :
    replies (run (desk [question]) (handle plainWords "bot" [] [] question) 0).log = 1 ∧
    completions (run (desk [question]) (handle plainWords "bot" [] [] question) 0).log = 3 ∧
    ∀ before r got after, (run (desk [question]) (handle plainWords "bot" [] [] question) 0).log =
      before ++ ⟨r, got⟩ :: after → Handled plainWords "bot" [] [] question before r :=
  ⟨by decide +kernel, by decide +kernel,
    (handled_of_run (S := desk [question]) (s := 0) (by decide) (by decide)).1⟩

/-- The posts of the author and the bot up to the question. -/
def own (me : String) (post : Post) (thread : List Post) : List Post :=
  thread.filter fun p => p.createAt ≤ post.createAt && (p.userId = post.userId || p.userId = me)

section Steering
variable {w : Words} {me : String} {direct groups : List String} {post : Post}
  {thread thread' : List Post}

theorem threadMessages_own (thread : List Post) :
    threadMessages w me thread post true = threadMessages w me (own me post thread) post true := by
  have hfilter : (own me post thread).filter (fun p => p.createAt ≤ post.createAt) =
      thread.filter fun p => p.createAt ≤ post.createAt &&
        (p.userId = post.userId || p.userId = me) := by
    unfold own
    rw [List.filter_filter]
    congr 1
    funext p
    cases decide (p.createAt ≤ post.createAt) <;> simp
  unfold threadMessages
  rw [hfilter]
  simp only [if_true, List.filter_filter]
  congr 2
  congr 1
  funext p
  cases decide (p.createAt ≤ post.createAt) <;> simp

theorem intentMessages_own (thread : List Post) :
    intentMessages w thread post = intentMessages w (own me post thread) post := by
  have hfilter : (own me post thread).filter (fun p => p.userId = post.userId &&
      p.createAt ≤ post.createAt) =
      thread.filter fun p => p.userId = post.userId && p.createAt ≤ post.createAt := by
    unfold own
    rw [List.filter_filter]
    congr 1
    funext p
    cases decide (p.userId = post.userId) <;> simp
  unfold intentMessages
  rw [hfilter]

/-- What somebody's account is used for, linking included. -/
def Request.acts : Request → Bool
  | .forget _ | .linkUrl _ | .confirm _ _ => true
  | .openSession token | .listTools token | .callTool token _ _ => token.isSome
  | _ => false

def Request.fetches : Request → Bool
  | .thread _ | .recent _ _ => true
  | _ => false

theorem not_acts_of_permitted {h : Log} {r : Request}
    (hp : Permitted w me direct groups post false h r) : r.acts = false := by
  have hnone : ∀ token, ActsFor w direct groups post false h token → token.isSome = false := by
    intro token ha
    cases token with
    | none => rfl
    | some token => cases ha.1
  cases r with
  | forget user | linkUrl user | confirm user code => cases hp.1
  | openSession token | listTools token => exact hnone token hp
  | callTool token name args => exact hnone token hp.1
  | _ => rfl

/-- Two Mattermosts that show threads which differ only in what others than the author and the bot
posted, and services that are the same in everything else. -/
structure Alike {σ : Type} (me : String) (post : Post) (S T : Service Request Answer σ) :
    Prop where
  others : ∀ r, r.fetches = false → ∀ s, S s r = T s r
  state : ∀ r s, (S s r).2 = (T s r).2
  thread : ∀ s id,
    (∃ t t', (S s (.thread id)).1 = .value t ∧ (T s (.thread id)).1 = .value t' ∧
      own me post t = own me post t') ∨ (S s (.thread id)).1 = (T s (.thread id)).1
  recent : ∀ s channel count,
    (∃ t t', (S s (.recent channel count)).1 = .value t ∧ (T s (.recent channel count)).1 = .value t' ∧
      own me post t = own me post t') ∨
    (S s (.recent channel count)).1 = (T s (.recent channel count)).1

variable {σ : Type} {S T : Service Request Answer σ} {acting : Bool} {h : Log}

theorem same_of_permitted {α : Type} {p : Talk α} {Q : Log → α → Prop} (halike : Alike me post S T)
    (hp : Holds (Permitted w me direct groups post acting) Q h p) (s : σ) : run S p s = run T p s := by
  refine Holds.run_eq (Q := Q) (hp.mono (fun h' r hr => halike.others r ?_) fun _ _ hq => hq) s
  cases r <;> first | exact hr.elim | rfl

theorem idle_of_permitted {α : Type} {p : Talk α} {Q : Log → α → Prop}
    (hp : Holds (Permitted w me direct groups post false) Q h p) (S : Service Request Answer σ) (s : σ) :
    Idle Request.acts (run S p s) := by
  intro r hr
  obtain ⟨e, he, rfl⟩ := List.mem_map.mp hr
  obtain ⟨before, after, hlog⟩ := List.append_of_mem he
  exact not_acts_of_permitted ((hp.run S s).1 before e.1 e.2 after hlog)

theorem completions_fetch (direct groups : List String) (post : Post)
    (thread thread' : List Post) :
    completions [fetch direct groups post thread, fetch direct groups post thread'] = 0 := by
  unfold fetch
  split <;> rfl

/-- What follows the thread: judged by the author's words alone, it acts on the author's and the
bot's alone. -/
theorem unsteered_rest (halike : Alike me post S T) (hown : own me post thread = own me post thread')
    (s : σ) :
    Unsteered Request.acts
      (run S (intent w thread post >>= answerAs w me direct groups thread post) s)
      (run T (intent w thread' post >>= answerAs w me direct groups thread' post) s) := by
  have hmessages : intentMessages w thread' post = intentMessages w thread post := calc
    intentMessages w thread' post = intentMessages w (own me post thread') post :=
      intentMessages_own thread'
    _ = intentMessages w (own me post thread) post := by rw [hown]
    _ = intentMessages w thread post := (intentMessages_own thread).symm
  have hintent : intent w thread' post = intent w thread post := by
    unfold intent
    rw [hmessages]
  -- Whichever of the two threads was fetched.
  have hholds : Holds (Permitted w me direct groups post false) _
      [fetch direct groups post thread, fetch direct groups post thread'] (intent w thread post) :=
    holds_intent (by simp) (completions_fetch ..)
  rw [run_bind, run_bind, hintent]
  refine .after (.of_eq (same_of_permitted halike hholds s)) (idle_of_permitted hholds S s)
    fun i hi => ?_
  obtain ⟨hgrown, hjudged⟩ := (hholds.run S s).2 i hi
  generalize [fetch direct groups post thread, fetch direct groups post thread'] ++ _ = h
    at hgrown hjudged
  have hone := hgrown.completions
  rw [completions_fetch] at hone
  have hanswer (t : List Post) (ht : t = thread ∨ t = thread') :
      Holds (Permitted w me direct groups post (isActing i)) (fun h' _ => replies h' = replies h) h
        (answerAs w me direct groups t post i) := by
    refine holds_answerAs (hgrown.kept _ ?_) hone hjudged
    rcases ht with rfl | rfl <;> simp
  cases hacting : isActing i with
  | true =>
    have hthread : answerAs w me direct groups thread' post i =
        answerAs w me direct groups thread post i := by
      unfold answerAs
      rw [threadMessages_own thread', ← hown, ← threadMessages_own]
      split_ifs with hlink hpersonal
      · rfl
      · rfl
      · simp only [not_or] at hlink
        simp [isActing, hlink, hpersonal] at hacting
    rw [hthread]
    exact .inl (.of_eq (same_of_permitted halike (hanswer thread (.inl rfl)) _))
  | false =>
    rw [hacting] at hanswer
    exact .inr ⟨idle_of_permitted (hanswer thread (.inl rfl)) S _,
      idle_of_permitted (hanswer thread' (.inr rfl)) T _⟩

theorem unsteered_answer (halike : Alike me post S T) (s : σ) :
    Unsteered Request.acts (run S (answer w me direct groups post) s)
      (run T (answer w me direct groups post) s) := by
  unfold answer threadOf
  split_ifs
  · refine .need rfl (halike.state _ s) ?_
    rcases halike.recent s post.channelId maxThreadPosts with ⟨t, t', ht, ht', hown⟩ | hsame
    · exact .inl ⟨t, t', ht, ht', unsteered_rest halike hown _⟩
    · exact .inr ⟨hsame, fun t => unsteered_rest halike rfl _⟩
  · refine .need rfl (halike.state _ s) ?_
    rcases halike.thread s post.id with ⟨t, t', ht, ht', hown⟩ | hsame
    · exact .inl ⟨t, t', ht, ht', unsteered_rest halike hown _⟩
    · exact .inr ⟨hsame, fun t => unsteered_rest halike rfl _⟩

theorem same_need (halike : Alike me post S T) {r : Request} (hr : r.fetches = false) (s : σ) :
    SameWork (run S (need r) s) (run T (need r) s) := by
  refine .of_eq ?_
  simp only [need, Dialogue.need, run, halike.others r hr s]
  cases (T s r).1 <;> rfl

end Steering

end PurdueAF.MattermostAnswers

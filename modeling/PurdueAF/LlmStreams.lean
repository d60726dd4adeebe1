import PurdueAF.EventStreams
import PurdueAF.LlmBalance
import PurdueAF.LlmReencoding
import PurdueAF.Machine
import PurdueAF.Utf8

/-!
# The stream a client is answered in

A client that asked for a stream is answered at once: one thread keeps the connection alive with
comments for as long as another waits for the reply, which then writes the reply's chunks. Whatever
the two do, and wherever the connection breaks, the client hears the chunks of the one reply that
was passed on, as far as they came, and knows of an end only after all of them.
-/
namespace PurdueAF.LlmProxy
open Py EventStreams Machine

/-- `json.dumps`, encoded. -/
def encoded (dumps : Json → String) (c : Json) : List UInt8 := (dumps c).toUTF8.toList

/-- An error inside a stream. The client hands OpenCode only its message, so the message carries
the type and code OpenCode reads. -/
def errorChunk (dumps : Json → String) (r : Reply) : List UInt8 :=
  let inner := dumps (.dict [("type", .str "error"),
    ("error", .dict [("code", .str r.code), ("message", .str r.error)])])
  encoded dumps (.dict [("error", .dict [("message", .str inner), ("type", .str "proxy"),
    ("code", .str r.code)])])

/-- `: waiting`. -/
def waiting : Message := .comment (Utf8.encode " waiting".toList)

/-- `data: [DONE]`. -/
def lastEvent : Message := .event (Utf8.encode "[DONE]".toList)

/-- What a stream says of the reply. -/
def Reply.messages (dumps : Json → String) (drawn : Drawn) (role : String) (r : Reply) :
    Except Exc (List Message) :=
  if r.status = 200 then do
    let chunks ← r.chunks (encoded dumps) drawn role
    return chunks.map .event ++ [lastEvent]
  else .ok [.event (errorChunk dumps r)]

inductive StreamPc
  /-- In `forward`. -/
  | forwarding
  /-- `forward` returned or raised: the ticker is stopped and joined. -/
  | joining
  | writing (left : List Bytes)
  | answered
  /-- A write failed, the ticker's or the handler's own. -/
  | gone
  | raised
  deriving DecidableEq, Repr

/-- `ticking` is whether the ticker's thread runs. -/
structure Stream where
  wire : Bytes := []
  gone : Bool := false
  stop : Bool := false
  ticking : Bool := true
  reply : Option Reply := none
  pc : StreamPc := .forwarding

/-- A write whose `cut` is a number fails after that many bytes. -/
inductive StreamAction
  | tick (cut : Option ℕ)
  /-- The ticker's wait ends with `stop` set. -/
  | tickerEnds
  | forwarded (reply : Option Reply)
  | join
  | write (cut : Option ℕ)

/-- What of the piece goes out. -/
def sent (piece : Bytes) : Option ℕ → Bytes
  | none => piece
  | some n => piece.take n

def streamStep (dumps : Json → String) (drawn : Drawn) (role : String) (s : Stream) :
    StreamAction → Option Stream
  | .tick cut =>
    if s.ticking then
      let s := { s with wire := s.wire ++ sent (frame waiting.bytes) cut }
      match cut with
      | none => some s
      | some _ => some { s with gone := true, ticking := false }
    else none
  | .tickerEnds => if s.ticking && s.stop then some { s with ticking := false } else none
  | .forwarded reply =>
    if s.pc = .forwarding then some { s with reply := reply, stop := true, pc := .joining }
    else none
  | .join =>
    if s.pc = .joining ∧ s.ticking = false then
      match s.reply with
      | none => some { s with pc := .raised }
      | some r =>
        if s.gone then some { s with pc := .gone }
        else
          match r.messages dumps drawn role with
          | .error _ => some { s with pc := .raised }
          | .ok ms => some { s with pc := .writing (ms.map (fun m => frame m.bytes) ++ [lastChunk]) }
    else none
  | .write cut =>
    match s.pc with
    | .writing [] => some { s with pc := .answered }
    | .writing (piece :: left) =>
      let s := { s with wire := s.wire ++ sent piece cut }
      match cut with
      | none => some { s with pc := .writing left }
      | some _ => some { s with pc := .gone }
    | _ => none

/-- What the stream says of the reply, once there is one. -/
def Stream.messages (dumps : Json → String) (drawn : Drawn) (role : String) (s : Stream) :
    List Message :=
  match s.reply.map (Reply.messages dumps drawn role) with
  | some (.ok ms) => ms
  | _ => []

theorem toUTF8_toList (s : String) : s.toUTF8.toList = Utf8.encode s.toList := by
  have hbytes : s.toUTF8 = s.toList.utf8Encode := String.utf8Encode_toList.symm
  rw [hbytes, ByteArray.toList, toList_loop, List.reverse_nil, List.nil_append, List.drop_zero,
    List.utf8Encode, Utf8.encode]
  simp

/-- No character that ends a line. -/
def Unbroken (text : List Char) : Prop := ∀ c ∈ text, c ≠ '\n' ∧ c ≠ '\r'

instance (text : List Char) : Decidable (Unbroken text) :=
  List.decidableBAll (p := fun c => c ≠ '\n' ∧ c ≠ '\r') text

theorem lineless_encode {text : List Char} (h : Unbroken text) : Lineless (Utf8.encode text) := by
  intro b hb
  constructor
  · rintro rfl
    exact (h '\n' (Utf8.mem_of_mem_encode (by decide) (by decide) hb)).1 rfl
  · rintro rfl
    exact (h '\r' (Utf8.mem_of_mem_encode (by decide) (by decide) hb)).2 rfl

theorem unbroken_stripSpace {text : List Char} (h : Unbroken text) : Unbroken (stripSpace text) := by
  intro c hc
  have hdrop := List.mem_reverse.mp hc
  exact h c ((List.dropWhile_suffix _).subset
    (List.mem_reverse.mp ((List.dropWhile_suffix _).subset hdrop)))

/-- The lines of the upstream's stream are lines. -/
def Upstream.Lined : Upstream → Prop
  | .unreachable => True
  | .answered _ _ _ lines _ _ _ => ∀ l ∈ lines, Unbroken l.2.toList

section Take
variable {r r' : Reply}

theorem payloads_takeReasoning {delta : Json} {name : String}
    (h : r.takeReasoning delta name = .ok r') : r'.payloads = r.payloads := by
  unfold Reply.takeReasoning at h
  obtain ⟨x, -, h⟩ := except_bind_ok h
  split_ifs at h with ht
  · obtain ⟨text, -, h⟩ := except_bind_ok h
    cases h
    rfl
  · cases h
    rfl

theorem payloads_takeCall {n : ℕ} {call : Json} (h : r.takeCall n call = .ok r') :
    r'.payloads = r.payloads := by
  unfold Reply.takeCall at h
  obtain ⟨index, -, h⟩ := except_bind_ok h
  obtain ⟨key, -, h⟩ := except_bind_ok h
  obtain ⟨callId, -, h⟩ := except_bind_ok h
  obtain ⟨function, -, h⟩ := except_bind_ok h
  obtain ⟨name, -, h⟩ := except_bind_ok h
  obtain ⟨name', -, h⟩ := except_bind_ok h
  obtain ⟨arguments, -, h⟩ := except_bind_ok h
  obtain ⟨arguments', -, h⟩ := except_bind_ok h
  cases h
  rfl

theorem payloads_takeCalls {n : ℕ} {calls : List Json} (h : r.takeCalls n calls = .ok r') :
    r'.payloads = r.payloads := by
  induction calls generalizing r n with
  | nil =>
    cases h
    rfl
  | cons call calls ih =>
    obtain ⟨r₁, h₁, h⟩ := except_bind_ok h
    exact (ih h).trans (payloads_takeCall h₁)

theorem payloads_takeChoice {choice : Json} (h : r.takeChoice choice = .ok r') :
    r'.payloads = r.payloads := by
  unfold Reply.takeChoice at h
  obtain ⟨delta, -, h⟩ := except_bind_ok h
  obtain ⟨message, -, h⟩ := except_bind_ok h
  obtain ⟨content, -, h⟩ := except_bind_ok h
  obtain ⟨text, -, h⟩ := except_bind_ok h
  obtain ⟨r₁, h₁, h⟩ := except_bind_ok h
  obtain ⟨r₂, h₂, h⟩ := except_bind_ok h
  obtain ⟨calls, -, h⟩ := except_bind_ok h
  obtain ⟨list, -, h⟩ := except_bind_ok h
  obtain ⟨r₃, h₃, h⟩ := except_bind_ok h
  obtain ⟨finish, -, h⟩ := except_bind_ok h
  have hcalls := payloads_takeCalls h₃
  have hsecond := payloads_takeReasoning h₂
  have hfirst := payloads_takeReasoning h₁
  obtain rfl := Except.ok.inj h
  split_ifs
  · exact (hcalls.trans hsecond).trans hfirst
  · exact (hcalls.trans hsecond).trans hfirst

theorem payloads_takeChoices {choices : List Json} (h : r.takeChoices choices = .ok r') :
    r'.payloads = r.payloads := by
  induction choices generalizing r with
  | nil =>
    cases h
    rfl
  | cons choice choices ih =>
    obtain ⟨r₁, h₁, h⟩ := except_bind_ok h
    exact (ih h).trans (payloads_takeChoice h₁)

theorem payloads_take {chunk : Json} (h : r.take chunk = .ok r') : r'.payloads = r.payloads := by
  unfold Reply.take at h
  obtain ⟨usage, -, h⟩ := except_bind_ok h
  obtain ⟨x, -, h⟩ := except_bind_ok h
  obtain ⟨choices, -, h⟩ := except_bind_ok h
  rw [payloads_takeChoices h]
  split_ifs <;> rfl

end Take

/-- What `exchange` keeps of the lines of a stream are single lines. -/
theorem lineless_readLines {std : Std} {ttft : ℚ} {lines : List (Bool × String)} {r r' : Reply}
    {left : Bool} (hlines : ∀ l ∈ lines, Unbroken l.2.toList) (hr : ∀ p ∈ r.payloads, Lineless p)
    (h : readLines std ttft r lines = .ok (r', left)) : ∀ p ∈ r'.payloads, Lineless p := by
  induction lines generalizing r with
  | nil =>
    cases h
    exact hr
  | cons l lines ih =>
    obtain ⟨gone, line⟩ := l
    have hrest : ∀ l ∈ lines, Unbroken l.2.toList := fun l hl => hlines l (by simp [hl])
    have hline : Unbroken line.toList := hlines (gone, line) (by simp)
    unfold readLines at h
    split_ifs at h with hgone
    · cases h
      exact hr
    · cases hdata : dataOf line with
      | none =>
        simp only [hdata] at h
        exact ih hrest hr h
      | some data =>
        simp only [hdata] at h
        split_ifs at h with hdone
        · cases h
          exact hr
        · obtain ⟨chunk, -, h⟩ := except_bind_ok h
          obtain ⟨r₁, h₁, h⟩ := except_bind_ok h
          refine ih hrest ?_ h
          have hdataLine : Lineless data.toUTF8.toList := by
            unfold dataOf at hdata
            split_ifs at hdata
            obtain rfl := Option.some.inj hdata
            rw [toUTF8_toList, String.toList_ofList]
            exact lineless_encode (unbroken_stripSpace fun c hc => hline c (List.mem_of_mem_drop hc))
          intro p hp
          cases htake : Reply.take _ chunk with
          | error e =>
            rw [htake] at h₁
            cases h₁
          | ok r₂ =>
            rw [htake] at h₁
            obtain rfl := Except.ok.inj h₁
            rw [payloads_take htake] at hp
            rcases List.mem_append.mp hp with hp | hp
            · exact hr p hp
            · exact List.mem_singleton.mp hp ▸ hdataLine

theorem lineless_exchange {std : Std} {stream : Bool} {u : Upstream} {r : Reply} (hu : u.Lined)
    (h : exchange std stream u = .ok r) : ∀ p ∈ r.payloads, Lineless p := by
  cases u with
  | unreachable => cases h
  | answered status headers content lines ending ttft seconds =>
    unfold exchange at h
    dsimp only at h
    split_ifs at h with hstatus hbroken hstream
    · cases h
      simp [upstreamError]
    · obtain ⟨⟨r₁, left⟩, h₁, h⟩ := except_bind_ok h
      dsimp only at h
      split_ifs at h
      cases h
      exact lineless_readLines hu (by simp) h₁
    · obtain ⟨chunk, -, h⟩ := except_bind_ok h
      obtain ⟨r₁, h₁, h⟩ := except_bind_ok h
      cases h
      cases htake : Reply.take _ chunk with
      | error e =>
        rw [htake] at h₁
        cases h₁
      | ok r₂ =>
        rw [htake] at h₁
        obtain rfl := Except.ok.inj h₁
        simp [payloads_take htake]

/-- A reply that `forward` made up, or one that came from upstream. -/
def Relayed (std : Std) (r : Reply) : Prop :=
  r.payloads = [] ∨ ∃ stream u, u.Lined ∧ exchange std stream u = .ok r

/-- The replies that a suspended `forward` has. -/
def Pc.replies : Pc → List Reply
  | .head l | .pick l | .cap l _ _ _ | .acquire l _ _ | .denied l | .exchange l _ | .pause l _ =>
    l.streamed.toList
  | .release l _ r _ _ | .failing l _ r | .failed l _ r | .observe l _ r _ =>
    r :: l.streamed.toList
  | .recovered _ r _ | .succeeded _ r _ => [r]

def Answer.Lined : Answer → Prop
  | .upstream u => u.Lined
  | _ => True

/-- `forward` goes on with such replies, or returns one. -/
structure Gives (std : Std) (x : Step) : Prop where
  next : ∀ pc, x.next = some pc → ∀ r ∈ pc.replies, Relayed std r
  returned : ∀ r, .returned r ∈ x.events → Relayed std r

section Gives
variable {config : Config} {std : Std} {w : World} {g : Memory}

theorem relayed_failure (status : ℕ) (code error : String) :
    Relayed std (failure status code error) := .inl rfl

theorem gives_awaiting {pc : Pc} (h : ∀ r ∈ pc.replies, Relayed std r) :
    Gives std (awaiting g pc) :=
  ⟨fun _ hpc => Option.some.inj hpc ▸ h, fun _ hr => absurd hr List.not_mem_nil⟩

theorem gives_returns {reply : Reply} (h : Relayed std reply) : Gives std (returns g reply) := by
  refine ⟨fun pc hpc => (by cases hpc), fun r hr => ?_⟩
  obtain rfl : r = reply := by simpa [returns] using hr
  exact h

theorem gives_raises (e : Exc) : Gives std (raises g e) :=
  ⟨fun pc hpc => (by cases hpc), fun r hr => by simp [raises] at hr⟩

theorem gives_trying {α : Type} {x : Except Exc α} {next : α → Step}
    (h : ∀ y, Gives std (next y)) : Gives std (trying g x next) := by
  cases x with
  | ok y => exact h y
  | error e => exact gives_raises e

variable {l : Loop} {a : Attempt} {reply : Reply}

theorem gives_judged (settings : Settings) (hr : Relayed std reply)
    (hl : ∀ r ∈ l.streamed.toList, Relayed std r) :
    Gives std (judged settings std g l a reply) := by
  have hboth : ∀ r ∈ reply :: l.streamed.toList, Relayed std r := List.forall_mem_cons.mpr ⟨hr, hl⟩
  have hgoing (problem : Option Reply.Problem) :
      Gives std (judged.going settings g l a reply problem) := by
    unfold judged.going
    split_ifs
    · exact gives_awaiting hboth
    · exact gives_returns hr
    · exact gives_trying fun d => gives_awaiting hboth
    · refine gives_awaiting fun r hmem => ?_
      obtain rfl : r = reply := by simpa [Pc.replies] using hmem
      exact hr
    · refine gives_trying fun d => gives_awaiting fun r hmem => ?_
      obtain rfl : r = reply := by simpa [Pc.replies] using hmem
      exact hr
  unfold judged
  refine gives_trying fun problem => ?_
  split
  · rename_i streamed hstreamed
    split_ifs
    · exact gives_returns (hl _ (by simp [hstreamed]))
    · exact hgoing problem
  · exact hgoing problem

theorem gives_exchange {u : Upstream} (hu : u.Lined)
    (hl : ∀ r ∈ l.streamed.toList, Relayed std r) : Gives std (resumeExchange std g l a u) := by
  have hboth {r : Reply} (hr : Relayed std r) : ∀ r' ∈ r :: l.streamed.toList, Relayed std r' :=
    List.forall_mem_cons.mpr ⟨hr, hl⟩
  unfold resumeExchange
  split
  · rename_i r hr
    have hrelayed : Relayed std r := .inr ⟨_, u, hu, hr⟩
    split_ifs
    · exact gives_trying fun n => gives_awaiting (hboth hrelayed)
    · exact gives_awaiting (hboth hrelayed)
  · exact gives_awaiting (hboth (.inl rfl))
  · exact gives_awaiting (hboth (.inl rfl))
  · exact gives_awaiting (hboth (.inl rfl))

/-- What a resumed `forward` has and returns, by where it was suspended. -/
theorem gives_resume {pc : Pc} {a : Answer} {x : Step}
    (hpc : ∀ r ∈ pc.replies, Relayed std r) (ha : a.Lined)
    (h : resume config std w g pc a = some x) : Gives std x := by
  unfold resume at h
  split at h <;> try cases h
  case h_1 l gone =>
    unfold resumeHead
    split
    · exact gives_returns (relayed_failure ..)
    · split
      · rename_i r hstreamed
        split_ifs
        · exact gives_returns (hpc r (by simp [Pc.replies, hstreamed]))
        · exact gives_awaiting hpc
      · exact gives_awaiting hpc
  case h_2 l =>
    refine gives_trying fun _ => gives_trying fun _ => gives_trying fun _ => ?_
    split_ifs
    · exact gives_returns (relayed_failure ..)
    · exact gives_awaiting hpc
  case h_3 l b prompt n =>
    exact gives_trying fun _ => gives_trying fun _ => gives_awaiting hpc
  case h_4 l x seq gone =>
    unfold resumeAcquire
    dsimp only
    split_ifs
    · exact gives_awaiting hpc
    · exact ⟨fun pc' heq => Option.some.inj heq ▸ hpc, by simp⟩
    · exact gives_awaiting hpc
    · exact gives_awaiting hpc
  case h_5 l gone =>
    unfold resumeDenied
    split
    · exact gives_returns (relayed_failure ..)
    · split
      · rename_i r hstreamed
        exact gives_returns (hpc r (by simp [Pc.replies, hstreamed]))
      · exact gives_returns (relayed_failure ..)
  case h_6 l x u => exact gives_exchange ha hpc
  case h_7 l x reply n raised =>
    unfold resumeRelease
    have hgives : ∀ next, Gives std next →
        Gives std { next with events := .released x.backend.model.name x.tokens :: next.events } :=
      fun next hnext => ⟨hnext.next, fun r hr => hnext.returned r (by simpa using hr)⟩
    refine hgives _ ?_
    cases raised with
    | some e => exact gives_raises e
    | none =>
      obtain ⟨hr, hl⟩ := List.forall_mem_cons.mp hpc
      exact gives_judged config.settings hr hl
  case h_8 l x reply gone =>
    obtain ⟨hr, hl⟩ := List.forall_mem_cons.mp hpc
    split_ifs
    · exact gives_awaiting hl
    · exact gives_awaiting hpc
  case h_9 l x reply r =>
    obtain ⟨hr, hl⟩ := List.forall_mem_cons.mp hpc
    have hwaiting (g : Memory) (till : Binary64.Value) :
        Gives std (if Binary64.le (.finite l.deadline) till then returns g keptFailing
          else awaiting g (.pause l till)) := by
      split_ifs
      · exact gives_returns (relayed_failure ..)
      · exact gives_awaiting hl
    unfold resumeFailed
    dsimp only
    split
    · exact hwaiting _ _
    · exact gives_trying fun wait => hwaiting _ _
  case h_10 l till stopping =>
    unfold resumePause
    split_ifs
    · exact gives_returns (relayed_failure ..)
    · exact gives_awaiting hpc
  case h_11 l x reply d =>
    obtain ⟨hr, hl⟩ := List.forall_mem_cons.mp hpc
    unfold resumeObserve
    dsimp only
    split_ifs
    · exact gives_returns (relayed_failure ..)
    · exact gives_trying fun n => gives_awaiting hl
  case h_12 x reply d => exact gives_awaiting hpc
  case h_13 x reply d => exact gives_returns (hpc reply (by simp [Pc.replies]))

theorem lined_of_serve {w' : World} {pc : Pc} {c b : Answer} (hc : c.Lined)
    (h : serve w pc c = some (w', b)) : b.Lined := by
  unfold serve at h
  split at h
  all_goals try split_ifs at h
  all_goals cases h
  all_goals exact hc

/-- Every reply that `forward` returns in a run whose upstream answers in lines. -/
theorem relayed_of_run {now : ℚ} {acts : List Act} {s : St} {t : ℕ}
    (hacts : ∀ t c, .serve t c ∈ acts → c.Lined)
    (hr : (program config std).run (initial config now) acts = some s)
    (hret : .returned reply ∈ (program config std).emits s (.resume t)) : Relayed std reply := by
  have hholds : Coroutine.Holds (fun _ _ => True) (fun _ _ pc a =>
      (∀ r ∈ pc.replies, Relayed std r) ∧ ∀ b, a = some b → b.Lined) s := by
    refine Coroutine.Program.run_invariant (C := fun _ a => ∀ t c, a = .serve t c → c.Lined)
      (Coroutine.Holds.step ?_ ?_ ?_ ?_)
      ⟨trivial, fun t th ht => by simp [initial, Coroutine.State.at] at ht⟩ ?_ hr
    · rintro s ⟨name, raw, body, session⟩ x - - hstart
      refine ⟨trivial, fun pc hnext => ?_, fun _ _ _ _ h => h⟩
      obtain ⟨role, -, rfl⟩ := Option.map_eq_some_iff.mp hstart
      obtain rfl := Option.some.inj hnext
      exact ⟨by simp [Pc.replies], by simp⟩
    · intro s t c pc w a h hc ht hv
      refine ⟨trivial, ⟨(h.each t _ ht).1, ?_⟩, fun _ _ _ _ _ h => h⟩
      rintro b ⟨⟩
      exact lined_of_serve (hc t c rfl) hv
    · intro s t pc a x h _ ht hx
      obtain ⟨hpc, ha⟩ := h.each t _ ht
      have hgives : Gives std x := gives_resume hpc (ha a rfl) hx
      exact ⟨trivial, fun pc' hnext => ⟨hgives.next pc' hnext, by simp⟩, fun _ _ _ _ _ h => h⟩
    · exact fun _ _ _ _ _ _ _ => ⟨trivial, fun _ _ _ _ h => h⟩
    · exact Coroutine.Program.Along.of_forall_mem fun a ha _ t c heq => hacts t c (heq ▸ ha)
  obtain ⟨pc, a, x, ht, hx, hmem⟩ : ∃ pc a x, s.at t = some ⟨pc, some a⟩ ∧
      resume config std s.world s.mem pc a = some x ∧ .returned reply ∈ x.events := by
    rcases Coroutine.Program.mem_emits hret with ⟨i, x, hcall, -⟩ | ⟨t', pc, a, x, heq, ht, hx, hmem⟩
    · cases hcall
    · obtain rfl := Coroutine.Action.resume.inj heq
      exact ⟨pc, a, x, ht, hx, hmem⟩
  obtain ⟨hpc, ha⟩ := hholds.each t _ ht
  exact (gives_resume hpc (ha a rfl) hx).returned reply hmem

end Gives

theorem lineless_messages {dumps : Json → String} (hdumps : ∀ c, Unbroken (dumps c).toList)
    {drawn : Drawn} {role : String} {r : Reply} (hr : ∀ p ∈ r.payloads, Lineless p)
    {ms : List Message} (h : r.messages dumps drawn role = .ok ms) :
    ∀ m ∈ ms, Lineless m.text := by
  have hencoded (c : Json) : Lineless (encoded dumps c) := by
    rw [encoded, toUTF8_toList]
    exact lineless_encode (hdumps c)
  unfold Reply.messages at h
  split_ifs at h with hstatus
  · obtain ⟨chunks, hchunks, h⟩ := except_bind_ok h
    obtain rfl := Except.ok.inj h
    have hall : ∀ c ∈ chunks, Lineless c := by
      unfold Reply.chunks at hchunks
      split_ifs at hchunks
      · obtain ⟨values, -, hchunks⟩ := except_bind_ok hchunks
        obtain rfl := Except.ok.inj hchunks
        intro c hc
        obtain ⟨value, -, rfl⟩ := List.mem_map.mp hc
        exact hencoded value
      · obtain rfl := Except.ok.inj hchunks
        exact hr
    intro m hm
    rcases List.mem_append.mp hm with hm | hm
    · obtain ⟨c, hc, rfl⟩ := List.mem_map.mp hm
      exact hall c hc
    · obtain rfl := List.mem_singleton.mp hm
      have hdone : Lineless lastEvent.text := by decide
      exact hdone
  · obtain rfl := Except.ok.inj h
    intro m hm
    obtain rfl := List.mem_singleton.mp hm
    exact hencoded _

/-- The wire before the reply, with nothing but comments on it. -/
def quiet (k : ℕ) : Bytes := frames (List.replicate k waiting)

def whole (k : ℕ) (ms : List Message) : Bytes :=
  frames (List.replicate k waiting ++ ms) ++ lastChunk

section Runs
variable {dumps : Json → String} {drawn : Drawn} {role : String} {s s' : Stream}

/-- What is on the wire, by where the handler stands. -/
def Wired (dumps : Json → String) (drawn : Drawn) (role : String) (s : Stream) : Prop :=
  match s.pc with
  | .forwarding | .joining | .raised =>
    ∃ k, s.wire <+: quiet k ∧ (s.gone = false → s.wire = quiet k)
  | .writing left => ∃ k, s.wire ++ left.flatten = whole k (s.messages dumps drawn role)
  | .answered => ∃ k, s.wire = whole k (s.messages dumps drawn role)
  | .gone => (∃ k, s.wire <+: quiet k) ∨ ∃ k, s.wire <+: whole k (s.messages dumps drawn role)

structure StreamSound (dumps : Json → String) (drawn : Drawn) (role : String) (s : Stream) :
    Prop where
  wired : Wired dumps drawn role s
  /-- The ticker runs until the handler joins it or a comment cannot be written. -/
  ticking : s.ticking = true → s.gone = false ∧ (s.pc = .forwarding ∨ s.pc = .joining)
  replied : s.pc = .forwarding ∨ s.pc = .joining ∨ s.pc = .raised ∨ s.reply.isSome
  payloads : ∀ r, s.reply = some r → ∀ p ∈ r.payloads, Lineless p

theorem quiet_succ (k : ℕ) : quiet (k + 1) = quiet k ++ frame waiting.bytes := by
  simp [quiet, frames, List.replicate_succ', List.flatMap_append]

theorem whole_eq_quiet (k : ℕ) (ms : List Message) :
    whole k ms = quiet k ++ (ms.map (fun m => frame m.bytes) ++ [lastChunk]).flatten := by
  simp [whole, quiet, frames, List.flatMap_def]

/-- A write leaves the beginning of what it was to leave. -/
theorem sent_isPrefix (piece : Bytes) (cut : Option ℕ) : sent piece cut <+: piece := by
  cases cut with
  | none => exact List.prefix_rfl
  | some n => exact List.take_prefix n piece

theorem sound_tick {cut : Option ℕ} (h : StreamSound dumps drawn role s)
    (hs : streamStep dumps drawn role s (.tick cut) = some s') :
    StreamSound dumps drawn role s' := by
  simp only [streamStep] at hs
  split_ifs at hs with hticking
  obtain ⟨hgone, hpc⟩ := h.ticking hticking
  obtain ⟨k, hwire⟩ : ∃ k, s.wire = quiet k := by
    have hwired := h.wired
    unfold Wired at hwired
    rcases hpc with hpc | hpc <;>
    · rw [hpc] at hwired
      obtain ⟨k, -, hk⟩ := hwired
      exact ⟨k, hk hgone⟩
  have hpart : s.wire ++ sent (frame waiting.bytes) cut <+: quiet (k + 1) := by
    rw [hwire, quiet_succ]
    exact (List.prefix_append_right_inj _).mpr (sent_isPrefix _ cut)
  cases cut with
  | none =>
    obtain rfl := Option.some.inj hs
    refine ⟨?_, fun _ => ⟨hgone, hpc⟩, h.replied, h.payloads⟩
    unfold Wired
    rcases hpc with hpc | hpc <;>
    · simp only [hpc]
      exact ⟨k + 1, hpart, fun _ => by rw [hwire, quiet_succ]; rfl⟩
  | some n =>
    obtain rfl := Option.some.inj hs
    refine ⟨?_, fun h => (by cases h), h.replied, h.payloads⟩
    unfold Wired
    rcases hpc with hpc | hpc <;>
    · simp only [hpc]
      exact ⟨k + 1, hpart, fun h => (by cases h)⟩

theorem sound_join (h : StreamSound dumps drawn role s)
    (hs : streamStep dumps drawn role s .join = some s') : StreamSound dumps drawn role s' := by
  have hjoining : s.pc = .joining ∧ s.ticking = false := by
    by_contra hne
    simp only [streamStep, if_neg hne] at hs
    cases hs
  simp only [streamStep, if_pos hjoining] at hs
  obtain ⟨hpc, hticking⟩ := hjoining
  have hquiet : ∃ k, s.wire <+: quiet k ∧ (s.gone = false → s.wire = quiet k) := by
    have hwired := h.wired
    unfold Wired at hwired
    rwa [hpc] at hwired
  have hstill {p : Prop} : s.ticking = true → p := fun h => by
    rw [hticking] at h
    cases h
  cases hreply : s.reply with
  | none =>
    simp only [hreply] at hs
    obtain rfl := Option.some.inj hs
    exact ⟨hquiet, hstill, .inr (.inr (.inl rfl)), fun r hr => h.payloads r (hreply.trans hr)⟩
  | some r =>
    simp only [hreply] at hs
    have hpayloads : ∀ r', some r = some r' → ∀ p ∈ r'.payloads, Lineless p :=
      fun r' hr' => h.payloads r' (hreply.trans hr')
    cases hgone : s.gone with
    | true =>
      simp only [hgone, if_true] at hs
      obtain rfl := Option.some.inj hs
      obtain ⟨k, hk, -⟩ := hquiet
      exact ⟨.inl ⟨k, hk⟩, hstill, .inr (.inr (.inr rfl)), hpayloads⟩
    | false =>
      simp only [hgone, Bool.false_eq_true, if_false] at hs
      cases hms : r.messages dumps drawn role with
      | error e =>
        simp only [hms] at hs
        obtain rfl := Option.some.inj hs
        obtain ⟨k, hpre, hk⟩ := hquiet
        exact ⟨⟨k, hpre, fun _ => hk hgone⟩, hstill, .inr (.inr (.inl rfl)), hpayloads⟩
      | ok ms =>
        simp only [hms] at hs
        obtain rfl := Option.some.inj hs
        obtain ⟨k, -, hk⟩ := hquiet
        refine ⟨⟨k, ?_⟩, hstill, .inr (.inr (.inr rfl)), hpayloads⟩
        simp only [Stream.messages, Option.map_some, hms]
        rw [whole_eq_quiet, hk hgone]

theorem sound_write {cut : Option ℕ} (h : StreamSound dumps drawn role s)
    (hs : streamStep dumps drawn role s (.write cut) = some s') :
    StreamSound dumps drawn role s' := by
  simp only [streamStep] at hs
  have hwired := h.wired
  unfold Wired at hwired
  have hstill {left : List Bytes} (hpc : s.pc = .writing left) {p : Prop} :
      s.ticking = true → p := by
    intro ht
    rcases (h.ticking ht).2 with hpc' | hpc' <;>
    · rw [hpc] at hpc'
      cases hpc'
  have hreplied {left : List Bytes} (hpc : s.pc = .writing left) {p q r : Prop} :
      p ∨ q ∨ r ∨ s.reply.isSome = true := by
    rcases h.replied with hpc' | hpc' | hpc' | hsome
    · rw [hpc] at hpc'
      cases hpc'
    · rw [hpc] at hpc'
      cases hpc'
    · rw [hpc] at hpc'
      cases hpc'
    · exact .inr (.inr (.inr hsome))
  split at hs
  · rename_i hpc
    obtain rfl := Option.some.inj hs
    simp only [hpc, List.flatten_nil, List.append_nil] at hwired
    exact ⟨hwired, hstill hpc, hreplied hpc, h.payloads⟩
  · rename_i piece left hpc
    simp only [hpc, List.flatten_cons] at hwired
    obtain ⟨k, hk⟩ := hwired
    cases cut with
    | none =>
      obtain rfl := Option.some.inj hs
      refine ⟨⟨k, ?_⟩, hstill hpc, hreplied hpc, h.payloads⟩
      rw [← List.append_assoc] at hk
      exact hk
    | some n =>
      obtain rfl := Option.some.inj hs
      refine ⟨.inr ⟨k, ?_⟩, hstill hpc, hreplied hpc, h.payloads⟩
      change s.wire ++ sent piece (some n) <+: whole k (Stream.messages dumps drawn role s)
      rw [← hk]
      exact (List.prefix_append_right_inj _).mpr
        ((sent_isPrefix piece (some n)).trans (List.prefix_append _ _))
  · cases hs

/-- Each step keeps what is on the wire in order. -/
theorem sound_streamStep {std : Std} {a : StreamAction} (h : StreamSound dumps drawn role s)
    (ha : ∀ r, a = .forwarded (some r) → Relayed std r)
    (hs : streamStep dumps drawn role s a = some s') : StreamSound dumps drawn role s' := by
  cases a with
  | tick cut => exact sound_tick h hs
  | join => exact sound_join h hs
  | write cut => exact sound_write h hs
  | tickerEnds =>
    simp only [streamStep] at hs
    split_ifs at hs
    obtain rfl := Option.some.inj hs
    exact ⟨h.wired, fun h => (by cases h), h.replied, h.payloads⟩
  | forwarded reply =>
    simp only [streamStep] at hs
    split_ifs at hs with hpc
    obtain rfl := Option.some.inj hs
    refine ⟨?_, fun ht => ⟨(h.ticking ht).1, .inr rfl⟩, .inr (.inl rfl), fun r hr => ?_⟩
    · have hwired := h.wired
      unfold Wired at hwired
      rwa [hpc] at hwired
    · obtain rfl : reply = some r := hr
      rcases ha r rfl with hnone | ⟨stream, u, hu, hexchange⟩
      · simp [hnone]
      · exact lineless_exchange hu hexchange

theorem heard_quiet {part : Bytes} {k : ℕ} (h : part <+: quiet k) :
    heard part = [] ∧ (readBody part).expect ≠ .ended := by
  have hlines : ∀ m ∈ List.replicate k waiting, Lineless m.text := by
    intro m hm
    obtain rfl := (List.mem_replicate.mp hm).2
    have hwaiting : Lineless waiting.text := by decide
    exact hwaiting
  obtain ⟨hheard, hended⟩ := heard_of_prefix hlines (h.trans (List.prefix_append _ lastChunk))
  constructor
  · have hnone : (List.replicate k waiting).filterMap Message.event? = [] := by
      rw [List.filterMap_replicate_of_none rfl]
    exact List.prefix_nil.mp (hnone ▸ hheard)
  · intro hend
    have hlen := h.length_le
    rw [hended hend, quiet, List.length_append] at hlen
    simp [lastChunk, crlf] at hlen

theorem heard_whole {part : Bytes} {k : ℕ} {ms : List Message} (hms : ∀ m ∈ ms, Lineless m.text)
    (h : part <+: whole k ms) : heard part <+: ms.filterMap Message.event? ∧
      ((readBody part).expect = .ended → part = whole k ms) ∧
      heard (whole k ms) = ms.filterMap Message.event? ∧
      (readBody (whole k ms)).expect = .ended := by
  have hlines : ∀ m ∈ List.replicate k waiting ++ ms, Lineless m.text := by
    intro m hm
    rcases List.mem_append.mp hm with hm | hm
    · obtain rfl := (List.mem_replicate.mp hm).2
      have hwaiting : Lineless waiting.text := by decide
      exact hwaiting
    · exact hms m hm
  have hevents : (List.replicate k waiting ++ ms).filterMap Message.event? =
      ms.filterMap Message.event? := by
    rw [List.filterMap_append, List.filterMap_replicate_of_none rfl, List.nil_append]
  obtain ⟨hheard, hended⟩ := heard_of_prefix hlines h
  obtain ⟨hall, hend⟩ := heard_frames hlines
  rw [hevents] at hheard hall
  exact ⟨hheard, hended, hall, hend⟩

/-- Whatever the ticker writes and when, and wherever a write breaks off: a client hears the first
events of the one reply that `forward` returned, in their order; it knows of the end only after
all of them, and an answered one knows. -/
theorem told_of_run (std : Std) (hdumps : ∀ c, Unbroken (dumps c).toList)
    {acts : List StreamAction} (hrelayed : ∀ r, .forwarded (some r) ∈ acts → Relayed std r)
    (hr : run (streamStep dumps drawn role) {} acts = some s) :
    heard s.wire <+: (s.messages dumps drawn role).filterMap Message.event? ∧
    ((readBody s.wire).expect = .ended → s.reply.isSome ∧
      heard s.wire = (s.messages dumps drawn role).filterMap Message.event?) ∧
    (s.pc = .answered → (readBody s.wire).expect = .ended) := by
  have hstart : StreamSound dumps drawn role {} :=
    ⟨⟨0, List.prefix_rfl, fun _ => rfl⟩, fun _ => ⟨rfl, .inl rfl⟩, .inl rfl, fun r h => (by cases h)⟩
  have h := run_invariant (C := fun _ a => ∀ r, a = .forwarded (some r) → Relayed std r) hstart
    (fun _ _ _ hi hc hs => sound_streamStep hi hc hs)
    (along_of_forall_mem fun a ha r heq => hrelayed r (by rwa [heq] at ha)) hr
  have hmessages : ∀ m ∈ s.messages dumps drawn role, Lineless m.text := by
    unfold Stream.messages
    cases hreply : s.reply with
    | none => simp
    | some r =>
      cases hms : r.messages dumps drawn role with
      | error e => simp [hms]
      | ok ms =>
        simp only [Option.map_some, hms]
        exact lineless_messages hdumps (h.payloads r hreply) hms
  have hwired := h.wired
  have hreplied := h.replied
  unfold Wired at hwired
  -- before the reply's first message nothing was said
  have hsilent {k : ℕ} (hk : s.wire <+: quiet k) :
      heard s.wire <+: (s.messages dumps drawn role).filterMap Message.event? ∧
      ((readBody s.wire).expect = .ended → s.reply.isSome ∧
        heard s.wire = (s.messages dumps drawn role).filterMap Message.event?) := by
    obtain ⟨hnone, hend⟩ := heard_quiet hk
    exact ⟨hnone ▸ List.nil_prefix, fun h => absurd h hend⟩
  have hspoken {k : ℕ} (hsome : s.reply.isSome)
      (hk : s.wire <+: whole k (s.messages dumps drawn role)) :
      heard s.wire <+: (s.messages dumps drawn role).filterMap Message.event? ∧
      ((readBody s.wire).expect = .ended → s.reply.isSome ∧
        heard s.wire = (s.messages dumps drawn role).filterMap Message.event?) := by
    obtain ⟨hheard, hended, hall, -⟩ := heard_whole hmessages hk
    exact ⟨hheard, fun h => ⟨hsome, by rw [hended h, hall]⟩⟩
  cases hpc : s.pc with
  | forwarding | joining | raised =>
    simp only [hpc] at hwired
    obtain ⟨k, hk, -⟩ := hwired
    exact ⟨(hsilent hk).1, (hsilent hk).2, fun h => (by cases h)⟩
  | writing left =>
    simp only [hpc, reduceCtorEq, false_or] at hwired hreplied
    obtain ⟨k, hk⟩ := hwired
    have hpart := hspoken hreplied (hk ▸ List.prefix_append _ _)
    exact ⟨hpart.1, hpart.2, fun h => (by cases h)⟩
  | answered =>
    simp only [hpc, reduceCtorEq, false_or] at hwired hreplied
    obtain ⟨k, hk⟩ := hwired
    have hall := hspoken hreplied ⟨[], by rw [List.append_nil, hk]⟩
    refine ⟨hall.1, hall.2, fun _ => ?_⟩
    rw [hk]
    exact (heard_whole (k := k) hmessages List.prefix_rfl).2.2.2
  | gone =>
    simp only [hpc, reduceCtorEq, false_or] at hwired hreplied
    rcases hwired with ⟨k, hk⟩ | ⟨k, hk⟩
    · exact ⟨(hsilent hk).1, (hsilent hk).2, fun h => (by cases h)⟩
    · exact ⟨(hspoken hreplied hk).1, (hspoken hreplied hk).2, fun h => (by cases h)⟩

end Runs

def errorText : String :=
  "\x7b\"type\": \"error\", \"error\": \x7b\"code\": \"server_error\", \"message\": " ++
  "\"the model kept failing\"\x7d\x7d"

def errorChunkText : String :=
  "\x7b\"error\": \x7b\"message\": \"\x7b\\\"type\\\": \\\"error\\\", " ++
  "\\\"error\\\": \x7b\\\"code\\\": \\\"server_error\\\", \\\"message\\\": " ++
  "\\\"the model kept failing\\\"\x7d\x7d\", \"type\": \"proxy\", " ++
  "\"code\": \"server_error\"\x7d\x7d"

/-- `json.dumps` of that error and of its chunk. -/
def dumpsFailing : Json → String
  | .dict (("type", _) :: _) => errorText
  | _ => errorChunkText

def failing : Reply := failure 503 "server_error" "the model kept failing"

/-- Two comments, and then the reply. -/
def relaying (reply : Reply) (pieces : ℕ) : List StreamAction :=
  [.tick none, .forwarded (some reply), .tick none, .tickerEnds, .join] ++
    List.replicate (pieces + 2) (.write none)

/-- The chunk that carries the usage. -/
def usageChunk : List UInt8 :=
  ("\x7b\"usage\": \x7b\"completion_tokens\": 3\x7d\x7d").toUTF8.toList

/-- A reply with that one chunk. -/
def carries : Event → Bool
  | .returned reply => reply.status = 200 && decide (reply.payloads = [usageChunk])
  | _ => false

/-- What `forward` returns of a stream, and where the model kept failing. -/
theorem told_of_run_replies :
    let std := usageJson "\x7b\"completion_tokens\": 3\x7d" (.dict [("completion_tokens", .int 3)])
    let acts := asking "\x7b\"completion_tokens\": 3\x7d" ++
      [.serve 0 .go, .resume 0, .serve 0 .go, .resume 0, .serve 0 .go]
    (∃ called reply s, (program smallConfig std).run (initial smallConfig 0) acts = some called ∧
      .returned reply ∈ (program smallConfig std).emits called (.resume 0) ∧
      run (streamStep dumpsFailing ⟨"0", fun _ => "", 0⟩ "main") {} (relaying reply 2) = some s ∧
      s.pc = .answered ∧ heard s.wire = [usageChunk, Utf8.encode "[DONE]".toList]) ∧
    ∃ s, run (streamStep dumpsFailing ⟨"0", fun _ => "", 0⟩ "main") {} (relaying failing 1) =
      some s ∧ s.pc = .answered ∧ heard s.wire = [errorChunk dumpsFailing failing] := by
  intro std acts
  have hdumps (c : Json) : Unbroken (dumpsFailing c).toList := by
    have herror : Unbroken errorText.toList := by decide +kernel
    have hchunk : Unbroken errorChunkText.toList := by decide +kernel
    unfold dumpsFailing
    split
    · exact herror
    · exact hchunk
  have hrelayed {reply : Reply} {n : ℕ} (hreply : Relayed std reply) :
      ∀ r, .forwarded (some r) ∈ relaying reply n → Relayed std r := by
    intro r hr
    have heq : r = reply := by simpa [relaying] using hr
    exact heq ▸ hreply
  constructor
  · have hany : ((program smallConfig std).run (initial smallConfig 0) acts).any
        (fun s => ((program smallConfig std).emits s (.resume 0)).any carries) = true := by
      decide +kernel
    obtain ⟨called, hcalled, hmem⟩ := (Option.any_eq_true _ _).mp hany
    obtain ⟨e, he, hcarries⟩ := List.any_eq_true.mp hmem
    cases e with
    | returned reply =>
      obtain ⟨hstatus, hpayloads⟩ : reply.status = 200 ∧ reply.payloads = [usageChunk] := by
        simpa [carries] using hcarries
      have hmessages : reply.messages dumpsFailing ⟨"0", fun _ => "", 0⟩ "main" =
          .ok [.event usageChunk, lastEvent] := by
        simp [Reply.messages, Reply.chunks, hstatus, hpayloads]
      obtain ⟨s, hs, hpc, hreply⟩ : ∃ s,
          run (streamStep dumpsFailing ⟨"0", fun _ => "", 0⟩ "main") {} (relaying reply 2) = some s ∧
            s.pc = .answered ∧ s.reply = some reply := by
        simp [relaying, run, streamStep, hmessages, List.replicate]
      have hlined : ∀ t c, .serve t c ∈ acts → c.Lined := by
        intro t c hc
        have hupstream : (streamed "\x7b\"completion_tokens\": 3\x7d").Lined := by
          have hall : ∀ l ∈ [(false, "data: \x7b\"usage\": " ++ "\x7b\"completion_tokens\": 3\x7d" ++
              "\x7d"), (false, "data: [DONE]")], Unbroken l.2.toList := by decide +kernel
          exact hall
        simp only [acts, asking, List.cons_append, List.nil_append, List.mem_cons, reduceCtorEq,
          Coroutine.Action.serve.injEq, List.not_mem_nil, or_false, false_or] at hc
        rcases hc with ⟨-, rfl⟩ | ⟨-, rfl⟩ | ⟨-, rfl⟩ | ⟨-, rfl⟩ | ⟨-, rfl⟩ | ⟨-, rfl⟩ | ⟨-, rfl⟩ |
          ⟨-, rfl⟩ <;> first | exact hupstream | trivial
      have h := told_of_run std hdumps (hrelayed (relayed_of_run hlined hcalled he)) hs
      refine ⟨called, reply, s, hcalled, he, hs, hpc, ?_⟩
      rw [((h.2.1) (h.2.2 hpc)).2, Stream.messages, hreply]
      simp only [Option.map_some, hmessages]
      rfl
    | _ => cases hcarries
  · obtain ⟨s, hs, hpc, hmessages⟩ : ∃ s,
        run (streamStep dumpsFailing ⟨"0", fun _ => "", 0⟩ "main") {} (relaying failing 1) = some s ∧
          s.pc = .answered ∧ s.messages dumpsFailing ⟨"0", fun _ => "", 0⟩ "main" =
            [.event (errorChunk dumpsFailing failing)] := ⟨_, rfl, rfl, rfl⟩
    have h := told_of_run std hdumps (hrelayed (.inl rfl)) hs
    refine ⟨s, hs, hpc, ?_⟩
    rw [((h.2.1) (h.2.2 hpc)).2, hmessages]
    rfl

end PurdueAF.LlmProxy

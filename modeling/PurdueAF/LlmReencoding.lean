import PurdueAF.LlmReplies

/-!
# A reply encoded again

A reply that was asked for whole goes to the agent as one `chat.completion`, or cut into
chunks for a client that streams. Both encoders sort the calls, number them and give an id
to those without; `take` of what they made gives the reply back.
-/
namespace PurdueAF.LlmProxy
open Py Binary64

/-- What `uuid` and `time` give while a reply is encoded: the `n`th call draws its own text. -/
structure Drawn where
  completion : String
  calls : ℕ → String
  created : ℤ

namespace Reply

/-- `take` of one chunk after the other. -/
def takeAll (r : Reply) : List Json → Except Exc Reply
  | [] => .ok r
  | chunk :: chunks => do
    let r ← r.take chunk
    takeAll r chunks

def isNum : Json.Key → Bool
  | .num _ => true
  | _ => false

def isText : Json.Key → Bool
  | .str _ => true
  | _ => false

def keyLe : Json.Key → Json.Key → Bool
  | .num x, .num y => Binary64.le x y
  | .str s, .str t => s ≤ t
  | _, _ => false

/-- `sorted(self.calls.items())`, without the keys. Keys of two types have no order, and no
two entries have one key, so the slots are never compared. -/
def sortedCalls (r : Reply) : Except Exc (List Slot) :=
  if r.calls.length ≤ 1 ∨ (r.calls.all fun c => isNum c.1) ∨ (r.calls.all fun c => isText c.1) then
    .ok ((r.calls.mergeSort fun c d => keyLe c.1 d.1).map Prod.snd)
  else .error .typeError

/-- The `n`th call's id, or the one it is given. -/
def idOf (drawn : Drawn) (n : ℕ) (slot : Slot) : Json :=
  slot.callId.or (.str ("call_" ++ String.ofList ((drawn.calls n).toList.take 12)))

def encodeCall (drawn : Drawn) (n : ℕ) (slot : Slot) : List (String × Json) :=
  [("id", idOf drawn n slot), ("type", .str "function"),
   ("function", .dict [("name", .str slot.name), ("arguments", .str slot.arguments)])]

def encodeCalls (drawn : Drawn) : ℕ → List Slot → List (List (String × Json))
  | _, [] => []
  | n, slot :: slots => encodeCall drawn n slot :: encodeCalls drawn (n + 1) slots

/-- The assistant's message, with its calls as they are given. -/
def assistant (r : Reply) (calls : List (List (String × Json))) : List (String × Json) :=
  let out := [("role", .str "assistant"),
    ("content", if r.content = "" then .null else .str r.content)]
  let out := if r.reasoning = "" then out else Json.setEntry out r.reasoningName (.str r.reasoning)
  if r.calls.isEmpty then out else Json.setEntry out "tool_calls" (.list (calls.map .dict))

/-- The reply as a chat.completion. -/
def message (drawn : Drawn) (role : String) (r : Reply) : Except Exc Json := do
  let slots ← r.sortedCalls
  return .dict
    [("id", .str ("chatcmpl-" ++ drawn.completion)), ("object", .str "chat.completion"),
     ("created", .int drawn.created), ("model", .str role),
     ("choices", .list [.dict [("index", .int 0),
       ("message", .dict (r.assistant (encodeCalls drawn 0 slots))), ("finish_reason", r.finish)]]),
     ("usage", r.usage)]

/-- `call["index"] = n` along the calls. -/
def number : ℕ → List (List (String × Json)) → List (List (String × Json))
  | _, [] => []
  | n, call :: calls => Json.setEntry call "index" (.int n) :: number (n + 1) calls

/-- A chunk with these entries after the base's. -/
def chunk (drawn : Drawn) (role : String) (entries : List (String × Json)) : Json :=
  .dict ([("id", .str ("chatcmpl-" ++ drawn.completion)), ("created", .int drawn.created),
    ("model", .str role), ("object", .str "chat.completion.chunk")] ++ entries)

/-- The chunks that `chunks` rebuilds, before `json.dumps`. -/
def chunkValues (drawn : Drawn) (role : String) (r : Reply) : Except Exc (List Json) := do
  let slots ← r.sortedCalls
  let delta := r.assistant (number 0 (encodeCalls drawn 0 slots))
  let out := [
    chunk drawn role [("choices", .list [.dict [("index", .int 0), ("delta", .dict delta),
      ("finish_reason", .null)]])],
    chunk drawn role [("choices", .list [.dict [("index", .int 0), ("delta", .dict []),
      ("finish_reason", r.finish)]])]]
  return if r.usage.truthy then
    out ++ [chunk drawn role [("choices", .list []), ("usage", r.usage)]]
  else out

/-- The reply as stream payloads: as received, or rebuilt from a whole one. -/
def chunks (dumps : Json → List UInt8) (drawn : Drawn) (role : String) (r : Reply) :
    Except Exc (List (List UInt8)) :=
  if r.payloads.isEmpty then do
    let values ← r.chunkValues drawn role
    return values.map dumps
  else .ok r.payloads

end Reply

def integral : Json → Bool
  | .int _ => true
  | _ => false

/-- The call's index is an integer, or it has none. -/
def indexedCall : Json → Bool
  | .dict call => (List.lookup "index" call).all integral
  | _ => false

def indexedDelta (delta : List (String × Json)) : Bool :=
  listed indexedCall (Json.lookup delta "tool_calls")

def indexedChoice : Json → Bool
  | .dict choice =>
    nested indexedDelta ((Json.lookup choice "delta").or (Json.lookup choice "message"))
  | _ => false

def indexedChunk : Json → Bool
  | .dict chunk => listed indexedChoice (Json.lookup chunk "choices")
  | _ => false

/-- What holds of a reply that took such chunks: it has nothing that says nothing, and no
payloads of its own. -/
structure Built (r : Reply) : Prop where
  finish : r.finish = .null ∨ r.finish.truthy = true
  usage : r.usage = .null ∨ r.usage.truthy = true
  named : r.reasoningName = "reasoning_content" ∨ r.reasoningName = "reasoning"
  unnamed : r.reasoning = "" → r.reasoningName = "reasoning_content"
  keys : ∀ c ∈ r.calls, ∃ n : ℤ, c.1 = .num (.finite n)
  payloads : r.payloads = []

theorem built_empty : Built {} :=
  ⟨.inl rfl, .inl rfl, .inl rfl, fun _ => rfl, by simp, rfl⟩

variable {r r' : Reply}

theorem takeReasoning_built {delta : Json} {name : String} (hr : Built r)
    (hname : name = "reasoning_content" ∨ name = "reasoning")
    (h : r.takeReasoning delta name = .ok r') : Built r' := by
  obtain ⟨x, -, h⟩ := except_bind_ok h
  by_cases ht : x.truthy = true
  · rw [if_pos ht] at h
    obtain ⟨text, htext, h⟩ := except_bind_ok h
    obtain rfl := Except.ok.inj h
    refine ⟨hr.finish, hr.usage, hname, ?_, hr.keys, hr.payloads⟩
    intro hempty
    cases x with
    | str t =>
      obtain rfl := Except.ok.inj htext
      have ht' : t ≠ "" := by simpa [Json.truthy] using ht
      exact absurd (String.append_eq_empty_iff.mp hempty).2 ht'
    | _ => cases htext
  · rw [if_neg ht] at h
    obtain rfl := Except.ok.inj h
    exact hr

theorem takeCall_built {n : ℕ} {call : Json} (hr : Built r) (hcall : indexedCall call = true)
    (h : r.takeCall n call = .ok r') : Built r' := by
  cases call with
  | dict call =>
    have hindex : ∃ k : ℤ, (List.lookup "index" call).getD (.int n) = .int k := by
      simp only [indexedCall] at hcall
      cases hl : List.lookup "index" call with
      | none => exact ⟨n, rfl⟩
      | some x =>
        rw [hl] at hcall
        cases x with
        | int k => exact ⟨k, rfl⟩
        | _ => cases hcall
    obtain ⟨k, hk⟩ := hindex
    simp only [Reply.takeCall, Json.getD, hk, Json.hashed, ok_bind] at h
    obtain ⟨id, -, h⟩ := except_bind_ok h
    obtain ⟨function, -, h⟩ := except_bind_ok h
    obtain ⟨x, -, h⟩ := except_bind_ok h
    obtain ⟨name, -, h⟩ := except_bind_ok h
    obtain ⟨y, -, h⟩ := except_bind_ok h
    obtain ⟨arguments, -, h⟩ := except_bind_ok h
    obtain rfl := Except.ok.inj h
    refine ⟨hr.finish, hr.usage, hr.named, hr.unnamed, ?_, hr.payloads⟩
    intro c hc
    rcases Dict.mem_set.mp hc with rfl | ⟨hc, -⟩
    · exact ⟨k, rfl⟩
    · exact hr.keys c hc
  | _ => cases hcall

theorem takeCalls_built {n : ℕ} {calls : List Json} (hr : Built r)
    (hcalls : ∀ c ∈ calls, indexedCall c = true) (h : r.takeCalls n calls = .ok r') :
    Built r' := by
  induction calls generalizing r n with
  | nil =>
    obtain rfl := Except.ok.inj h
    exact hr
  | cons c calls ih =>
    obtain ⟨r₁, h₁, h⟩ := except_bind_ok h
    have hr₁ := takeCall_built hr (hcalls c (by simp)) h₁
    exact ih hr₁ (fun d hd => hcalls d (by simp [hd])) h

theorem takeChoice_built {choice : Json} (hr : Built r) (hchoice : indexedChoice choice = true)
    (h : r.takeChoice choice = .ok r') : Built r' := by
  cases choice with
  | dict choice =>
    obtain ⟨delta, hd, hindexed⟩ := dict_of_nested hchoice (by rfl)
    obtain ⟨calls, hiter, hall⟩ := iter_of_listed hindexed
    simp only [Reply.takeChoice, Json.get_dict, ok_bind, hd, hiter] at h
    obtain ⟨content, -, h⟩ := except_bind_ok h
    obtain ⟨r₁, h₁, h⟩ := except_bind_ok h
    obtain ⟨r₂, h₂, h⟩ := except_bind_ok h
    obtain ⟨r₃, h₃, h⟩ := except_bind_ok h
    have hr₀ : Built { r with content := content } :=
      ⟨hr.finish, hr.usage, hr.named, hr.unnamed, hr.keys, hr.payloads⟩
    have hr₁ := takeReasoning_built hr₀ (.inl rfl) h₁
    have hr₂ := takeReasoning_built hr₁ (.inr rfl) h₂
    have hr₃ := takeCalls_built hr₂ hall h₃
    obtain rfl := Except.ok.inj h
    split_ifs with hf
    · exact ⟨.inr hf, hr₃.usage, hr₃.named, hr₃.unnamed, hr₃.keys, hr₃.payloads⟩
    · exact hr₃
  | _ => cases hchoice

theorem takeChoices_built {choices : List Json} (hr : Built r)
    (hchoices : ∀ c ∈ choices, indexedChoice c = true) (h : r.takeChoices choices = .ok r') :
    Built r' := by
  induction choices generalizing r with
  | nil =>
    obtain rfl := Except.ok.inj h
    exact hr
  | cons c choices ih =>
    obtain ⟨r₁, h₁, h⟩ := except_bind_ok h
    have hr₁ := takeChoice_built hr (hchoices c (by simp)) h₁
    exact ih hr₁ (fun d hd => hchoices d (by simp [hd])) h

theorem take_built {chunk : Json} (hr : Built r) (hchunk : indexedChunk chunk = true)
    (h : r.take chunk = .ok r') : Built r' := by
  cases chunk with
  | dict chunk =>
    obtain ⟨choices, hiter, hall⟩ := iter_of_listed hchunk
    simp only [Reply.take, Json.get_dict, ok_bind, hiter] at h
    refine takeChoices_built ?_ hall h
    split_ifs with hu
    · exact ⟨hr.finish, .inr hu, hr.named, hr.unnamed, hr.keys, hr.payloads⟩
    · exact hr
  | _ => cases hchunk

/-- Chunks of that shape are all taken. -/
theorem takeAll_built {chunks : List Json} (hr : Built r)
    (hchunks : ∀ c ∈ chunks, chunkShaped c = true ∧ indexedChunk c = true) :
    ∃ r', r.takeAll chunks = .ok r' ∧ Built r' := by
  induction chunks generalizing r with
  | nil => exact ⟨r, rfl, hr⟩
  | cons c chunks ih =>
    obtain ⟨hshaped, hindexed⟩ := hchunks c (by simp)
    obtain ⟨r₁, h₁, -⟩ := take_ok (r := r) hshaped
    obtain ⟨r₂, h₂, hr₂⟩ := ih (take_built hr hindexed h₁) fun d hd => hchunks d (by simp [hd])
    exact ⟨r₂, by simp only [Reply.takeAll, h₁, ok_bind, h₂], hr₂⟩

/-- The slot that takes the encoded call. -/
def slotBack (drawn : Drawn) (x : Slot × ℕ) : Slot :=
  ⟨Reply.idOf drawn x.2 x.1, x.1.name, x.1.arguments⟩

theorem encodeCalls_eq (drawn : Drawn) (n : ℕ) (slots : List Slot) :
    Reply.encodeCalls drawn n slots =
      (slots.zipIdx n).map fun x => Reply.encodeCall drawn x.2 x.1 := by
  induction slots generalizing n with
  | nil => rfl
  | cons s slots ih => simp [Reply.encodeCalls, ih]

theorem number_encodeCalls (drawn : Drawn) (n : ℕ) (slots : List Slot) :
    Reply.number n (Reply.encodeCalls drawn n slots) =
      (slots.zipIdx n).map fun x =>
        Reply.encodeCall drawn x.2 x.1 ++ [("index", .int x.2)] := by
  induction slots generalizing n with
  | nil => rfl
  | cons s slots ih =>
    simp [Reply.encodeCalls, Reply.number, ih, Json.setEntry, Reply.encodeCall]

theorem truthy_idOf (drawn : Drawn) (n : ℕ) (slot : Slot) :
    (Reply.idOf drawn n slot).truthy = true := by
  unfold Reply.idOf Json.or
  split_ifs with h
  · exact h
  · simp [Json.truthy]

theorem appendTo_str (text new : String) :
    ((Json.str new).or (.str "")).appendTo text = .ok (text ++ new) := by
  unfold Json.or
  split_ifs with h
  · rfl
  · obtain rfl : new = "" := by simpa [Json.truthy] using h
    rfl

/-- Either way an encoded call is given its own number and found under it. -/
theorem takeCall_encoded (drawn : Drawn) (x : Slot × ℕ) {last : List (String × Json)}
    (hlast : last = [] ∨ last = [("index", .int x.2)])
    (hfree : r.calls.get? (.num (.finite x.2)) = none) :
    r.takeCall x.2 (.dict (Reply.encodeCall drawn x.2 x.1 ++ last)) =
      .ok { r with calls := (.num (.finite x.2), slotBack drawn x) :: r.calls } := by
  have hindex : (List.lookup "index" (Reply.encodeCall drawn x.2 x.1 ++ last)).getD (.int x.2) =
      .int x.2 := by
    rcases hlast with rfl | rfl
    · rfl
    · rfl
  have hid : Json.lookup (Reply.encodeCall drawn x.2 x.1 ++ last) "id" =
      Reply.idOf drawn x.2 x.1 := rfl
  have hfunction : Json.lookup (Reply.encodeCall drawn x.2 x.1 ++ last) "function" =
      .dict [("name", .str x.1.name), ("arguments", .str x.1.arguments)] := rfl
  have hname : Json.lookup [("name", .str x.1.name), ("arguments", .str x.1.arguments)] "name" =
      .str x.1.name := rfl
  have harguments : Json.lookup [("name", .str x.1.name), ("arguments", .str x.1.arguments)]
      "arguments" = .str x.1.arguments := rfl
  have hor : ∀ y, (Reply.idOf drawn x.2 x.1).or y = Reply.idOf drawn x.2 x.1 := by
    intro y
    rw [Json.or, if_pos (truthy_idOf drawn x.2 x.1)]
  have hset : r.calls.set (.num (.finite x.2)) (slotBack drawn x) =
      (.num (.finite x.2), slotBack drawn x) :: r.calls := by
    rw [Dict.set, Dict.pop_of_get?_none hfree]
  rw [← hset]
  have hdict : (Json.dict [("name", .str x.1.name), ("arguments", .str x.1.arguments)]).or
      (.dict []) = .dict [("name", .str x.1.name), ("arguments", .str x.1.arguments)] := rfl
  simp only [Reply.takeCall, Json.getD, hindex, Json.hashed, ok_bind, Json.get_dict, hid,
    hfunction, hdict, hname, harguments, appendTo_str, hor, Int.cast_natCast, hfree,
    Option.getD_none, String.empty_append]
  rfl

/-- The calls a reply has that took these slots' calls. -/
def callsBack (drawn : Drawn) (n : ℕ) (slots : List Slot) : Dict Json.Key Slot :=
  ((slots.zipIdx n).map fun x => (.num (.finite x.2), slotBack drawn x)).reverse

theorem callsBack_cons (drawn : Drawn) (n : ℕ) (s : Slot) (slots : List Slot) :
    callsBack drawn n (s :: slots) =
      callsBack drawn (n + 1) slots ++ [(.num (.finite n), slotBack drawn (s, n))] := by
  simp [callsBack]

theorem takeCalls_encoded (drawn : Drawn) {last : ℕ → List (String × Json)}
    (hlast : ∀ n, last n = [] ∨ last n = [("index", .int n)]) (slots : List Slot) (n : ℕ)
    (hbelow : ∀ c ∈ r.calls, ∃ k : ℕ, k < n ∧ c.1 = .num (.finite k)) :
    r.takeCalls n (((slots.zipIdx n).map fun x =>
        Reply.encodeCall drawn x.2 x.1 ++ last x.2).map .dict) =
      .ok { r with calls := callsBack drawn n slots ++ r.calls } := by
  induction slots generalizing n r with
  | nil => rfl
  | cons s slots ih =>
    have hfree : r.calls.get? (.num (.finite n)) = none := by
      rw [Dict.get?_eq_none_iff]
      intro hmem
      obtain ⟨c, hc, hkey⟩ := List.mem_map.mp hmem
      obtain ⟨k, hk, hck⟩ := hbelow c hc
      rw [hck] at hkey
      have hcast : (k : ℚ) = n := by simpa using hkey
      have hkn : k = n := by exact_mod_cast hcast
      omega
    have hcall := takeCall_encoded (r := r) drawn (s, n) (hlast n) hfree
    have hbelow' : ∀ c ∈ ({ r with
          calls := (.num (.finite n), slotBack drawn (s, n)) :: r.calls } : Reply).calls,
        ∃ k : ℕ, k < n + 1 ∧ c.1 = .num (.finite k) := by
      intro c hc
      rcases List.mem_cons.mp hc with rfl | hc
      · exact ⟨n, by omega, rfl⟩
      · obtain ⟨k, hk, hck⟩ := hbelow c hc
        exact ⟨k, by omega, hck⟩
    rw [List.zipIdx_cons, List.map_cons, List.map_cons, Reply.takeCalls, hcall, ok_bind,
      ih (n + 1) hbelow', callsBack_cons]
    simp

theorem mergeSort_zipIdx_reverse (slots : List Slot) :
    (slots.zipIdx.reverse.mergeSort fun x y => decide (x.2 ≤ y.2)) = slots.zipIdx := by
  have hle : ∀ x y : Slot × ℕ, x ∈ slots.zipIdx.reverse.mergeSort (fun x y => decide (x.2 ≤ y.2)) →
      y ∈ slots.zipIdx → decide (x.2 ≤ y.2) = true → decide (y.2 ≤ x.2) = true → x = y := by
    intro x y hx hy hxy hyx
    have hx' := List.mem_zipIdx_iff_getElem?.mp (List.mem_reverse.mp (List.mem_mergeSort.mp hx))
    have hy' := List.mem_zipIdx_iff_getElem?.mp hy
    simp only [decide_eq_true_eq] at hxy hyx
    have hsnd : x.2 = y.2 := le_antisymm hxy hyx
    rw [hsnd, hy'] at hx'
    exact Prod.ext (Option.some.inj hx').symm hsnd
  refine List.Perm.eq_of_pairwise hle ?_ ?_ ?_
  · apply List.pairwise_mergeSort
    · simp only [decide_eq_true_eq]
      intro x y z hxy hyz
      exact hxy.trans hyz
    · simp only [Bool.or_eq_true, decide_eq_true_eq]
      intro x y
      exact le_total x.2 y.2
  · have hrange : (slots.zipIdx.map Prod.snd).Pairwise (· < ·) := by
      rw [List.zipIdx_map_snd]
      exact List.pairwise_lt_range'
    refine (List.pairwise_map.mp hrange).imp ?_
    intro x y hxy
    exact decide_eq_true hxy.le
  · exact (List.mergeSort_perm _ _).trans (List.reverse_perm _)

/-- The calls taken back are in order as they were encoded. -/
theorem sortedCalls_back (drawn : Drawn) {slots : List Slot} (h : r.calls = callsBack drawn 0 slots) :
    r.sortedCalls = .ok (slots.zipIdx.map (slotBack drawn)) := by
  have hnum : (r.calls.all fun c => Reply.isNum c.1) = true := by
    rw [h, List.all_eq_true]
    intro c hc
    obtain ⟨x, -, rfl⟩ := List.mem_map.mp (List.mem_reverse.mp hc)
    rfl
  have hmap := List.map_mergeSort (r := fun x y : Slot × ℕ => decide (x.2 ≤ y.2))
    (s := fun c d => Reply.keyLe c.1 d.1)
    (f := fun x => (Json.Key.num (.finite x.2), slotBack drawn x)) (l := slots.zipIdx.reverse) (by
      intro x _ y _
      have hnot : decide (x.2 ≤ y.2) = !decide (y.2 < x.2) := by
        rw [← decide_not, decide_eq_decide, not_lt]
      simpa [Reply.keyLe, Binary64.le, Binary64.lt] using hnot)
  rw [mergeSort_zipIdx_reverse] at hmap
  rw [Reply.sortedCalls, if_pos (.inr (.inl hnum)), h, callsBack, ← List.map_reverse, ← hmap,
    List.map_map]
  rfl

theorem lookup_cons (key k : String) (x : Json) (entries : List (String × Json)) :
    Json.lookup ((k, x) :: entries) key = if key = k then x else Json.lookup entries key := by
  change ((Dict.get? ((k, x) :: entries) key).getD .null) = _
  rw [Dict.get?_cons]
  split_ifs
  · rfl
  · rfl

@[simp] theorem lookup_nil (key : String) : Json.lookup [] key = .null := rfl

theorem assistant_eq (hr : Built r) (calls : List (List (String × Json))) :
    r.assistant calls =
      [("role", .str "assistant"),
        ("content", if r.content = "" then .null else .str r.content)] ++
      (if r.reasoning = "" then [] else [(r.reasoningName, .str r.reasoning)]) ++
      if r.calls.isEmpty then [] else [("tool_calls", .list (calls.map .dict))] := by
  unfold Reply.assistant
  rcases hr.named with h | h
  · rw [h]
    split_ifs <;> rfl
  · rw [h]
    split_ifs <;> rfl

theorem lookup_assistant (hr : Built r) (calls : List (List (String × Json))) :
    Json.lookup (r.assistant calls) "content" =
        (if r.content = "" then .null else .str r.content) ∧
      (∀ name, name = "reasoning_content" ∨ name = "reasoning" →
        Json.lookup (r.assistant calls) name =
          if r.reasoning = "" ∨ r.reasoningName ≠ name then .null else .str r.reasoning) ∧
      Json.lookup (r.assistant calls) "tool_calls" =
        if r.calls.isEmpty then .null else .list (calls.map .dict) := by
  rw [assistant_eq hr]
  refine ⟨?_, ?_, ?_⟩
  · simp [lookup_cons]
  · rintro name hname
    have h₁ : name ≠ "role" := by rcases hname with rfl | rfl <;> decide
    have h₂ : name ≠ "content" := by rcases hname with rfl | rfl <;> decide
    have h₃ : name ≠ "tool_calls" := by rcases hname with rfl | rfl <;> decide
    by_cases hempty : r.reasoning = ""
    · split_ifs <;> simp_all [lookup_cons]
    · by_cases hn : r.reasoningName = name
      · simp [lookup_cons, h₁, h₂, hempty, hn]
      · have hn' : name ≠ r.reasoningName := fun h => hn h.symm
        split_ifs <;> simp_all [lookup_cons]
  · have hn : "tool_calls" ≠ r.reasoningName := by
      rcases hr.named with h | h <;> rw [h] <;> decide
    split_ifs <;> simp_all [lookup_cons]

/-- What is taken back of a reply's message, after this usage. -/
def messageBack (drawn : Drawn) (slots : List Slot) (usage : Json) (r : Reply) : Reply :=
  { content := r.content, reasoning := r.reasoning, reasoningName := r.reasoningName,
    calls := callsBack drawn 0 slots, usage := usage }

theorem takeReasoning_null {delta : List (String × Json)} {name : String}
    (h : Json.lookup delta name = .null) : r.takeReasoning (.dict delta) name = .ok r := by
  simp [Reply.takeReasoning, h, Json.truthy, pure, Except.pure]

theorem takeReasoning_str {delta : List (String × Json)} {name text : String} (hne : text ≠ "")
    (h : Json.lookup delta name = .str text) : r.takeReasoning (.dict delta) name =
      .ok { r with reasoning := r.reasoning ++ text, reasoningName := name } := by
  simp [Reply.takeReasoning, h, Json.truthy, hne, Json.appendTo, pure, Except.pure]

/-- Reasoning is taken back under the name it has. -/
theorem takeReasoning_assistant (drawn : Drawn) (hr : Built r)
    (calls : List (List (String × Json))) (usage : Json) :
    (({ content := r.content, usage := usage } : Reply).takeReasoning
        (.dict (r.assistant calls)) "reasoning_content" >>= fun r₁ =>
          r₁.takeReasoning (.dict (r.assistant calls)) "reasoning") =
      .ok (messageBack drawn [] usage r) := by
  obtain ⟨-, hlookup, -⟩ := lookup_assistant hr calls
  have h₁ := hlookup "reasoning_content" (.inl rfl)
  have h₂ := hlookup "reasoning" (.inr rfl)
  unfold messageBack
  by_cases hempty : r.reasoning = ""
  · rw [if_pos (.inl hempty)] at h₁ h₂
    rw [takeReasoning_null h₁, ok_bind, takeReasoning_null h₂, hempty, hr.unnamed hempty]
    rfl
  · rcases hr.named with hname | hname
    · rw [if_neg (by simp [hempty, hname])] at h₁
      rw [if_pos (.inr (by simp [hname]))] at h₂
      rw [takeReasoning_str hempty h₁, ok_bind, takeReasoning_null h₂, hname, String.empty_append]
      rfl
    · rw [if_pos (.inr (by simp [hname]))] at h₁
      rw [if_neg (by simp [hempty, hname])] at h₂
      rw [takeReasoning_null h₁, ok_bind, takeReasoning_str hempty h₂, hname, String.empty_append]
      rfl

theorem truthy_assistant (hr : Built r) (calls : List (List (String × Json))) :
    (Json.dict (r.assistant calls)).truthy = true := by
  rw [assistant_eq hr]
  rfl

/-- The choice with the message is taken back the same under either of its names. -/
theorem takeChoice_assistant (drawn : Drawn) (hr : Built r) {slots : List Slot}
    (hslots : r.calls.isEmpty = true → slots = []) (last : ℕ → List (String × Json))
    (hlast : ∀ n, last n = [] ∨ last n = [("index", .int n)])
    {calls : List (List (String × Json))}
    (hcalls : calls = slots.zipIdx.map fun x => Reply.encodeCall drawn x.2 x.1 ++ last x.2)
    {name : String} (hname : name = "delta" ∨ name = "message") (finish usage : Json) :
    ({ usage := usage } : Reply).takeChoice (.dict [("index", .int 0),
        (name, .dict (r.assistant calls)), ("finish_reason", finish)]) = .ok (
      if finish.truthy then { messageBack drawn slots usage r with finish := finish }
      else messageBack drawn slots usage r) := by
  set choice := [("index", .int 0), (name, .dict (r.assistant calls)), ("finish_reason", finish)]
    with hchoice
  obtain ⟨hcontent, -, htool⟩ := lookup_assistant hr calls
  have hdelta : ((Json.lookup choice "delta").or (Json.lookup choice "message")).or (.dict []) =
      .dict (r.assistant calls) := by
    rw [hchoice]
    rcases hname with rfl | rfl
    · simp [lookup_cons, Json.or, truthy_assistant hr calls]
    · simp [lookup_cons, Json.or, Json.truthy]
  have hfinish : Json.lookup choice "finish_reason" = finish := by
    rw [hchoice]
    rcases hname with rfl | rfl
    · simp [lookup_cons]
    · simp [lookup_cons]
  have happend : ((Json.lookup (r.assistant calls) "content").or (.str "")).appendTo "" =
      .ok r.content := by
    rw [hcontent]
    split_ifs with h
    · rw [h]
      rfl
    · rw [appendTo_str, String.empty_append]
  have hiter : ((Json.lookup (r.assistant calls) "tool_calls").or (.list [])).iter =
      .ok (calls.map .dict) := by
    rw [htool]
    split_ifs with h
    · rw [hcalls, hslots h]
      rfl
    · unfold Json.or
      split_ifs with ht
      · rfl
      · have hnil : calls = [] := by simpa [Json.truthy] using ht
        rw [hnil]
        rfl
  obtain ⟨r₁, h₁, h₂⟩ := except_bind_ok (takeReasoning_assistant drawn hr calls usage)
  have htake := takeCalls_encoded (r := messageBack drawn [] usage r) drawn hlast
    slots 0 (by simp [messageBack, callsBack])
  have hback : callsBack drawn 0 slots ++ (messageBack drawn [] usage r).calls =
      callsBack drawn 0 slots := List.append_nil _
  rw [hback] at htake
  simp only [Reply.takeChoice, Json.get_dict, ok_bind, hdelta, hfinish, happend, h₁, h₂, hiter]
  rw [hcalls, htake]
  rfl

/-- A choice without a delta says at most how the reply ended. -/
theorem takeChoice_finish (finish : Json) :
    r.takeChoice (.dict [("index", .int 0), ("delta", .dict []), ("finish_reason", finish)]) =
      .ok (if finish.truthy then { r with finish := finish } else r) := by
  have hcontent : ((Json.lookup [] "content").or (.str "")).appendTo r.content = .ok r.content := by
    rw [lookup_nil, show Json.null.or (.str "") = .str "" from rfl, Json.appendTo,
      String.append_empty]
  have hdelta : ((Json.dict []).or .null).or (.dict []) = .dict [] := rfl
  have hnone : Json.lookup [("index", .int 0), ("delta", .dict []), ("finish_reason", finish)]
      "message" = .null := by simp [lookup_cons]
  have hempty : Json.lookup [("index", .int 0), ("delta", .dict []), ("finish_reason", finish)]
      "delta" = .dict [] := by simp [lookup_cons]
  have hfinish : Json.lookup [("index", .int 0), ("delta", .dict []), ("finish_reason", finish)]
      "finish_reason" = finish := by simp [lookup_cons]
  simp only [Reply.takeChoice, Json.get_dict, hnone, hempty, hfinish, hdelta, ok_bind, hcontent,
    takeReasoning_null (lookup_nil _)]
  rfl

/-- A call and what came back of it: an id is new only where there was none. -/
structure CallKept (slot back : Slot) : Prop where
  name : back.name = slot.name
  arguments : back.arguments = slot.arguments
  callId : slot.callId.truthy = true → back.callId = slot.callId

/-- A reply and what came back of it. -/
structure ReplyKept (r back : Reply) : Prop where
  content : back.content = r.content
  reasoning : back.reasoning = r.reasoning
  reasoningName : back.reasoningName = r.reasoningName
  finish : back.finish = r.finish
  usage : back.usage = r.usage
  calls : ∃ slots slots', r.sortedCalls = .ok slots ∧ back.sortedCalls = .ok slots' ∧
    List.Forall₂ CallKept slots slots'

theorem sortedCalls_built (hr : Built r) :
    ∃ slots, r.sortedCalls = .ok slots ∧ (r.calls.isEmpty = true → slots = []) := by
  have hnum : (r.calls.all fun c => Reply.isNum c.1) = true := by
    rw [List.all_eq_true]
    intro c hc
    obtain ⟨n, hn⟩ := hr.keys c hc
    rw [hn]
    rfl
  refine ⟨_, if_pos (.inr (.inl hnum)), ?_⟩
  intro hempty
  rw [List.isEmpty_iff.mp hempty]
  simp

theorem callKept_back (drawn : Drawn) (slots : List Slot) (n : ℕ) :
    List.Forall₂ CallKept slots ((slots.zipIdx n).map (slotBack drawn)) := by
  induction slots generalizing n with
  | nil => exact .nil
  | cons s slots ih =>
    rw [List.zipIdx_cons, List.map_cons]
    refine .cons ⟨rfl, rfl, ?_⟩ (ih (n + 1))
    intro hid
    exact if_pos hid

theorem replyKept_back (drawn : Drawn) {slots : List Slot} (hslots : r.sortedCalls = .ok slots) :
    ReplyKept r { messageBack drawn slots r.usage r with finish := r.finish } :=
  ⟨rfl, rfl, rfl, rfl, rfl, slots, _, hslots, sortedCalls_back drawn rfl, callKept_back drawn slots 0⟩

theorem or_null {x : Json} (h : x = .null ∨ x.truthy = true) : x.or .null = x := by
  rcases h with rfl | h
  · rfl
  · exact if_pos h

theorem take_chunk (usage : Json) (choices : List Json) {chunk : List (String × Json)}
    (husage : Json.lookup chunk "usage" = usage) (hchoices : Json.lookup chunk "choices" = .list choices) :
    r.take (.dict chunk) = { r with usage := usage.or r.usage }.takeChoices choices := by
  have hiter : ((Json.list choices).or (.list [])).iter = .ok choices := by
    cases choices with
    | nil => rfl
    | cons c choices => rfl
  have hstart : (if usage.truthy then { r with usage := usage } else r) =
      { r with usage := usage.or r.usage } := by
    unfold Json.or
    split_ifs
    · rfl
    · rfl
  simp only [Reply.take, Json.get_dict, ok_bind, husage, hchoices, hiter, hstart]

theorem finish_back {drawn : Drawn} {slots : List Slot} (hr : Built r) (usage : Json) :
    (if r.finish.truthy then { messageBack drawn slots usage r with finish := r.finish }
      else messageBack drawn slots usage r) =
      { messageBack drawn slots usage r with finish := r.finish } := by
  split_ifs with h
  · rfl
  · rw [hr.finish.resolve_right h]
    rfl

theorem take_message (drawn : Drawn) (role : String) (hr : Built r) :
    ∃ whole back, r.message drawn role = .ok whole ∧ ({} : Reply).take whole = .ok back ∧
      ReplyKept r back := by
  obtain ⟨slots, hslots, hempty⟩ := sortedCalls_built hr
  refine ⟨_, _, by rw [Reply.message, hslots]; rfl, ?_, replyKept_back drawn hslots⟩
  have hchoice := takeChoice_assistant drawn hr hempty (fun _ => []) (fun _ => .inl rfl)
    (by simpa using encodeCalls_eq drawn 0 slots) (.inr rfl) r.finish r.usage
  rw [finish_back hr] at hchoice
  rw [take_chunk r.usage _ (by simp [lookup_cons]) (by simp [lookup_cons]; rfl),
    or_null hr.usage]
  simp only [Reply.takeChoices, hchoice, ok_bind]

theorem takeAll_chunkValues (drawn : Drawn) (role : String) (hr : Built r) :
    ∃ values back, r.chunkValues drawn role = .ok values ∧ ({} : Reply).takeAll values = .ok back ∧
      ReplyKept r back := by
  obtain ⟨slots, hslots, hempty⟩ := sortedCalls_built hr
  have hfirst : ({} : Reply).take (Reply.chunk drawn role [("choices", .list [.dict [
      ("index", .int 0),
      ("delta", .dict (r.assistant (Reply.number 0 (Reply.encodeCalls drawn 0 slots)))),
      ("finish_reason", .null)]])]) = .ok (messageBack drawn slots .null r) := by
    have hchoice := takeChoice_assistant drawn hr hempty (fun n => [("index", .int n)])
      (fun _ => .inr rfl) (number_encodeCalls drawn 0 slots) (.inl rfl) .null .null
    rw [Reply.chunk, take_chunk .null _ (by simp [lookup_cons])
      (by simp [lookup_cons]; rfl), show Json.null.or .null = .null from rfl, Reply.takeChoices,
      hchoice]
    rfl
  have hsecond : (messageBack drawn slots .null r).take (Reply.chunk drawn role
      [("choices", .list [.dict [("index", .int 0), ("delta", .dict []),
        ("finish_reason", r.finish)]])]) =
      .ok { messageBack drawn slots .null r with finish := r.finish } := by
    rw [Reply.chunk, take_chunk .null _ (by simp [lookup_cons])
      (by simp [lookup_cons]; rfl), Reply.takeChoices, takeChoice_finish, ok_bind,
      ← finish_back hr]
    rfl
  by_cases husage : r.usage.truthy = true
  · have hthird : { messageBack drawn slots .null r with finish := r.finish }.take
        (Reply.chunk drawn role [("choices", .list []), ("usage", r.usage)]) =
        .ok { messageBack drawn slots r.usage r with finish := r.finish } := by
      rw [Reply.chunk, take_chunk r.usage [] (by simp [lookup_cons])
        (by simp [lookup_cons]), Json.or, if_pos husage]
      rfl
    refine ⟨_, _, by simp only [Reply.chunkValues, hslots, ok_bind, husage, if_true]; rfl, ?_,
      replyKept_back drawn hslots⟩
    simp only [List.cons_append, List.nil_append, Reply.takeAll, hfirst, hsecond, hthird, ok_bind]
  · have hkept := replyKept_back drawn hslots
    rw [hr.usage.resolve_right husage] at hkept
    refine ⟨_, _, by
      simp only [Reply.chunkValues, hslots, ok_bind, husage, Bool.false_eq_true, if_false]; rfl, ?_,
      hkept⟩
    simp only [Reply.takeAll, hfirst, hsecond, ok_bind]

/-- A reply built of chunks of that shape is encoded, and what is decoded and taken of its
chunks, or taken of its message, is that reply again. -/
theorem reply_reencoded (std : Std) (dumps : Json → List UInt8) (drawn : Drawn) (role : String)
    {received : List Json}
    (hreceived : ∀ c ∈ received, chunkShaped c = true ∧ indexedChunk c = true) :
    ∃ r values, ({} : Reply).takeAll received = .ok r ∧ r.chunkValues drawn role = .ok values ∧
      ((∀ c ∈ values, std.loads (dumps c) = .ok c) → ∃ payloads decoded back,
        r.chunks dumps drawn role = .ok payloads ∧ payloads.mapM std.loads = .ok decoded ∧
          ({} : Reply).takeAll decoded = .ok back ∧ ReplyKept r back) ∧
      ∃ whole back, r.message drawn role = .ok whole ∧ ({} : Reply).take whole = .ok back ∧
        ReplyKept r back := by
  obtain ⟨r, hr, hbuilt⟩ := takeAll_built built_empty hreceived
  obtain ⟨values, back, hvalues, hback, hkept⟩ := takeAll_chunkValues drawn role hbuilt
  refine ⟨r, values, hr, hvalues, ?_, take_message drawn role hbuilt⟩
  intro hdumps
  have hloads : (values.map dumps).mapM std.loads = .ok values := by
    clear hvalues hback
    induction values with
    | nil => rfl
    | cons c values ih =>
      have htail := ih fun d hd => hdumps d (by simp [hd])
      rw [List.map_cons, List.mapM_cons, hdumps c (by simp), htail]
      rfl
  refine ⟨values.map dumps, values, back, ?_, hloads, hback, hkept⟩
  simp only [Reply.chunks, hbuilt.payloads, List.isEmpty_nil, if_true, hvalues, ok_bind]
  rfl

/-- One call in two pieces, under an index of its own. -/
def pieces : List Json :=
  [.dict [("choices", .list [.dict [("delta", .dict [("tool_calls", .list [.dict
      [("index", .int 3), ("id", .str "a1"), ("function", .dict
        [("name", .str "ls"), ("arguments", .str "[")])]])])]])],
   .dict [("choices", .list [.dict [("delta", .dict [("tool_calls", .list [.dict
      [("index", .int 3), ("function", .dict [("arguments", .str "]")])]])]),
      ("finish_reason", .str "tool_calls")]])]]

/-- The reply of both pieces. -/
def listing : Reply :=
  { finish := .str "tool_calls"
    calls := [(.num (.finite (3 : ℤ)), ⟨.str "a1", "ls", "[]"⟩)] }

def callChunk : Json :=
  Reply.chunk ⟨"0", fun _ => "", 0⟩ "main" [("choices", .list [.dict [("index", .int 0),
    ("delta", .dict [("role", .str "assistant"), ("content", .null), ("tool_calls", .list [.dict
      [("id", .str "a1"), ("type", .str "function"),
       ("function", .dict [("name", .str "ls"), ("arguments", .str "[]")]),
       ("index", .int 0)]])]), ("finish_reason", .null)]])]

def callText : String :=
  "\x7b\"id\": \"chatcmpl-0\", \"created\": 0, \"model\": \"main\", \"object\": " ++
  "\"chat.completion.chunk\", \"choices\": [\x7b\"index\": 0, \"delta\": \x7b\"role\": " ++
  "\"assistant\", \"content\": null, \"tool_calls\": [\x7b\"id\": \"a1\", \"type\": " ++
  "\"function\", \"function\": \x7b\"name\": \"ls\", \"arguments\": \"[]\"\x7d, " ++
  "\"index\": 0\x7d]\x7d, \"finish_reason\": null\x7d]\x7d"

def finishChunk : Json :=
  Reply.chunk ⟨"0", fun _ => "", 0⟩ "main" [("choices", .list [.dict [("index", .int 0),
    ("delta", .dict []), ("finish_reason", .str "tool_calls")]])]

def finishText : String :=
  "\x7b\"id\": \"chatcmpl-0\", \"created\": 0, \"model\": \"main\", \"object\": " ++
  "\"chat.completion.chunk\", \"choices\": [\x7b\"index\": 0, \"delta\": \x7b\x7d, " ++
  "\"finish_reason\": \"tool_calls\"\x7d]\x7d"

/-- `json.dumps` and `json.loads` of the two chunks. -/
def dumpsPieces (c : Json) : List UInt8 :=
  match c with
  | .dict entries =>
    match Json.lookup entries "choices" with
    | .list [.dict choice] => if (Json.lookup choice "finish_reason").truthy then
        finishText.toUTF8.toList else callText.toUTF8.toList
    | _ => []
  | _ => []

def loadsPieces (text : List UInt8) : Except Undecoded Json :=
  if text = callText.toUTF8.toList then .ok callChunk
  else if text = finishText.toUTF8.toList then .ok finishChunk
  else .error .invalid

theorem toList_loop (bytes : ByteArray) (i : ℕ) (taken : List UInt8) :
    ByteArray.toList.loop bytes i taken = taken.reverse ++ bytes.data.toList.drop i := by
  have hsize : bytes.data.toList.length = bytes.size := Array.length_toList
  induction hn : bytes.size - i generalizing i taken with
  | zero =>
    rw [ByteArray.toList.loop, if_neg (by omega), List.drop_eq_nil_of_le (by omega),
      List.append_nil]
  | succ n ih =>
    have hi : i < bytes.data.toList.length := by omega
    have hget : bytes.get! i = bytes.data.toList[i] := by
      rw [ByteArray.get!]
      exact getElem!_pos bytes.data i (by simpa using hi)
    rw [ByteArray.toList.loop, if_pos (by omega), ih _ _ (by omega), List.drop_eq_getElem_cons hi,
      List.reverse_cons, List.append_assoc, List.singleton_append, hget]

theorem toUTF8_toList_inj {s t : String} (h : s.toUTF8.toList = t.toUTF8.toList) : s = t := by
  rw [ByteArray.toList, ByteArray.toList, toList_loop, toList_loop] at h
  exact String.toByteArray_inj.mp (ByteArray.ext (Array.toList_inj.mp h))

theorem reply_reencoded_pieces : ∃ payloads decoded back,
    ({} : Reply).takeAll pieces = .ok listing ∧
      listing.chunks dumpsPieces ⟨"0", fun _ => "", 0⟩ "main" = .ok payloads ∧
      payloads.mapM loadsPieces = .ok decoded ∧ ({} : Reply).takeAll decoded = .ok back ∧
      ReplyKept listing back := by
  have hpieces : ∀ c ∈ pieces, chunkShaped c = true ∧ indexedChunk c = true := by
    intro c hc
    rcases List.mem_pair.mp hc with rfl | rfl
    · exact ⟨by decide, by decide⟩
    · exact ⟨by decide, by decide⟩
  obtain ⟨r, values, hr, hvalues, hchunks, -⟩ := reply_reencoded ⟨loadsPieces, fun _ => ""⟩
    dumpsPieces ⟨"0", fun _ => "", 0⟩ "main" hpieces
  have hlisting : ({} : Reply).takeAll pieces = .ok listing := rfl
  obtain rfl := Except.ok.inj (hlisting.symm.trans hr)
  have hsorted : listing.sortedCalls = .ok [⟨.str "a1", "ls", "[]"⟩] := by
    simp [Reply.sortedCalls, listing]
  have htwo : values = [callChunk, finishChunk] := by
    rw [Reply.chunkValues, hsorted] at hvalues
    exact (Except.ok.inj hvalues).symm
  have hne : finishText.toUTF8.toList ≠ callText.toUTF8.toList :=
    fun h => absurd (toUTF8_toList_inj h) (by decide +kernel)
  have hcall : loadsPieces (dumpsPieces callChunk) = .ok callChunk := by
    have hdumps : dumpsPieces callChunk = callText.toUTF8.toList := by
      unfold dumpsPieces callChunk
      dsimp only [Reply.chunk]
      exact if_neg (by decide)
    rw [hdumps, loadsPieces, if_pos rfl]
  have hfinish : loadsPieces (dumpsPieces finishChunk) = .ok finishChunk := by
    have hdumps : dumpsPieces finishChunk = finishText.toUTF8.toList := by
      unfold dumpsPieces finishChunk
      dsimp only [Reply.chunk]
      exact if_pos (by decide)
    rw [hdumps, loadsPieces, if_neg hne, if_pos rfl]
  obtain ⟨payloads, decoded, back, h⟩ := hchunks (by
    rw [htwo]
    intro c hc
    rcases List.mem_pair.mp hc with rfl | rfl
    · exact hcall
    · exact hfinish)
  exact ⟨payloads, decoded, back, hr, h⟩

end PurdueAF.LlmProxy

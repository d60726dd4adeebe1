import PurdueAF.Dict
import PurdueAF.PyJson
import PurdueAF.WholeLines

/-!
# The records of a turn

The plugin of an agentic analysis appends its records to a file, a line each, and `_Watch.read`
takes in those that are whole whenever it is called. `loads` is `json.loads` of bytes, `dumps` is
`json.dumps` and `str` what an f-string makes of a value.
-/
namespace PurdueAF.RecordWatch
open Py WholeLines

abbrev Bytes := List UInt8

def newline : UInt8 := 10

def carriageReturn : UInt8 := 13

/-- What the plugin has `record` write. -/
inductive Entry
  | helpers (packages : String) (failed : Option String)
  | loaded (pid : ℕ)
  | beat (session : String)
  | reply (session text : String)
  | cut (session parent : String) (agent : Option String)
  | tool (session : String) (parent agent : Option String) (called status input : String)
      (failed : Option String)
  | error (session parent agent failed : Option String) (message : String)

def orNull (text : Option String) : Json := (text.map Json.str).getD .null

def Entry.fields : Entry → List (String × Json)
  | .helpers packages failed =>
    [("kind", .str "helpers"), ("packages", .str packages), ("error", orNull failed)]
  | .loaded pid => [("kind", .str "loaded"), ("pid", .int pid)]
  | .beat session => [("kind", .str "beat"), ("session", .str session)]
  | .reply session text => [("kind", .str "reply"), ("session", .str session), ("text", .str text)]
  | .cut session parent agent =>
    [("kind", .str "cut"), ("session", .str session), ("parent", .str parent),
      ("agent", orNull agent)]
  | .tool session parent agent called status input failed =>
    [("kind", .str "tool"), ("session", .str session), ("parent", orNull parent),
      ("agent", orNull agent), ("tool", .str called), ("status", .str status),
      ("input", .str input), ("error", orNull failed)]
  | .error session parent agent failed message =>
    [("kind", .str "error"), ("session", orNull session), ("parent", orNull parent),
      ("agent", orNull agent), ("error", orNull failed), ("message", .str message)]

/-- The object `record` writes as a line; `t` is the time. -/
def Entry.record (t : Json) (entry : Entry) : List (String × Json) := ("t", t) :: entry.fields

inductive Stop
  | raised (e : Exc)
  | keyError
  deriving DecidableEq

def logLine : ℕ := 240

/-- `self.replies` has a list of texts for each session; `log` is what has been logged. -/
structure Watch where
  offset : ℕ
  loaded : Bool
  replies : Dict Json.Key (List Json)
  heard : ℚ
  log : List String

/-- `__init__`, on the file as it is. -/
def Watch.start (records : Option Bytes) (now : ℚ) : Watch :=
  ⟨(records.map List.length).getD 0, false, [], now, []⟩

/-- `bytes.splitlines`; `line` is what there is of the next one, and `returned` says that a carriage
return came just before, which a newline then belongs to. -/
def splitLines (line : Bytes) (returned : Bool) : Bytes → List Bytes
  | [] => if line.isEmpty then [] else [line]
  | c :: rest =>
    if c = newline then
      if returned then splitLines [] false rest else line :: splitLines [] false rest
    else if c = carriageReturn then line :: splitLines [] true rest
    else splitLines (line ++ [c]) false rest

section Program
variable (loads : Bytes → Except Undecoded Json) (dumps str : Json → String)

/-- `" ".join(line.split())[:LOG_LINE]` -/
def oneLine (line : String) : String :=
  let words := (line.toList.splitOnP isSpace).filter (· ≠ [])
  String.ofList ((" ".intercalate (words.map String.ofList)).toList.take logLine)

/-- `line.split` is a string's. -/
def narrated : Json → Except Exc String
  | .str line => .ok (oneLine line)
  | _ => .error .attributeError

/-- `_narrate` -/
def narrate (event : List (String × Json)) : Except Exc String := do
  let get := Json.lookup event
  let part := (get "part").or (.dict [])
  let state := (← part.get "state").or (.dict [])
  let error := (get "error").or (.dict [])
  let agent := str (get "agent")
  let what := (get "type").or (get "kind")
  if what.isStr "tool_use" then
    let time := (← state.get "time").or (.dict [])
    if (← time.get "compacted").truthy then return ""
    let tool := str (← part.get "tool")
    let input := dumps (← state.get "input")
    if (← state.get "status").isStr "error" then
      let failed := str (← state.get "error")
      narrated (.str s!"{tool} {input} failed: {failed}")
    else narrated (.str s!"{tool} {input}")
  else if what.isStr "text" then
    if (← part.get "synthetic").truthy then return ""
    narrated ((← part.get "text").or (.str ""))
  else if what.isStr "step_finish" then
    if (← part.get "reason").isStr "length" then narrated (.str "the reply ran out of output tokens")
    else return ""
  else if what.isStr "cut" then
    narrated (.str s!"{agent}: the reply ran out of output tokens")
  else if what.isStr "error" then
    if (event.lookup "kind").isSome then
      let name := str (get "error")
      let message := str (get "message")
      narrated (.str s!"{agent} {name}: {message}")
    else
      let data := (← error.get "data").or (.dict [])
      let name := str (← error.get "name")
      let message := str (← data.get "message")
      narrated (.str s!"{name}: {message}")
  else if what.isStr "tool" then
    let tool := str (get "tool")
    let input := str (get "input")
    if (get "status").isStr "error" then
      let failed := str (get "error")
      narrated (.str s!"{agent} {tool} {input} failed: {failed}")
    else narrated (.str s!"{agent} {tool} {input}")
  else return ""

/-- What the loop does with a record that is an object; it may end with an exception. -/
def takeRecord (record : List (String × Json)) (watch : Watch) : Watch × Option Stop :=
  let get := Json.lookup record
  if (get "kind").isStr "loaded" then ({ watch with loaded := true }, none)
  else if (get "kind").isStr "helpers" then
    let packages := str (get "packages")
    let failed := str ((get "error").or (.str "put there"))
    ({ watch with log := watch.log ++ [s!"helpers in {packages}: {failed}"] }, none)
  else if (get "kind").isStr "reply" then
    match record.lookup "session" with
    | none => (watch, some .keyError)
    | some session =>
      match session.hashed with
      | .error e => (watch, some (.raised e))
      | .ok key =>
        -- `setdefault` comes before the text is looked up
        let kept := (watch.replies.get? key).getD []
        match record.lookup "text" with
        | none => ({ watch with replies := watch.replies.set key kept }, some .keyError)
        | some text => ({ watch with replies := watch.replies.set key (kept ++ [text]) }, none)
  else if (get "parent").truthy then
    match narrate dumps str record with
    | .error e => (watch, some (.raised e))
    | .ok said =>
      if said = "" then (watch, none) else ({ watch with log := watch.log ++ ["  " ++ said] }, none)
  else (watch, none)

/-- A round of the loop. -/
def takeLine (now : ℚ) (line : Bytes) (watch : Watch) : Watch × Option Stop :=
  let watch := { watch with heard := now }
  match loads line with
  | .error .invalid => (watch, none)
  | .error .nestedTooDeep => (watch, some (.raised .recursionError))
  | .ok (.dict record) => takeRecord dumps str record watch
  | .ok _ => (watch, some (.raised .attributeError))

/-- The loop, with the lines that it has come to; `clock` is read for each of them. -/
def takeLines : (ℕ → ℚ) → List Bytes → Watch → Watch × List Bytes × Option Stop
  | _, [], watch => (watch, [], none)
  | clock, line :: lines, watch =>
    match takeLine loads dumps str (clock 0) line watch with
    | (watch, some stop) => (watch, [line], some stop)
    | (watch, none) =>
      let (watch, later, stop) := takeLines (fun n => clock (n + 1)) lines watch
      (watch, line :: later, stop)

/-- `_Watch.read` -/
def read (clock : ℕ → ℚ) (records : Option Bytes) (watch : Watch) :
    Watch × List Bytes × Option Stop :=
  match records with
  | none => (watch, [], none)
  | some bytes =>
    let written := bytes.drop watch.offset
    let lines := whole newline written
    takeLines loads dumps str clock (splitLines [] false lines)
      { watch with offset := watch.offset + lines.length }

structure World where
  records : Option Bytes
  watch : Watch

inductive Event
  | append (piece : Bytes)
  | read (clock : ℕ → ℚ)

/-- A run, with the lines that all its reads have come to. -/
def run : World → List Event → World × List Bytes
  | w, [] => (w, [])
  | w, .append piece :: events => run { w with records := some (w.records.getD [] ++ piece) } events
  | w, .read clock :: events =>
    let (watch, lines, _) := read loads dumps str clock w.records w.watch
    let (w', later) := run { w with watch } events
    (w', lines ++ later)

end Program

/-- What has been appended. -/
def appended (events : List Event) : Bytes :=
  events.flatMap fun
    | .append piece => piece
    | .read _ => []

theorem splitLines_line {line : Bytes} (hnl : newline ∉ line) (hcr : carriageReturn ∉ line)
    (before rest : Bytes) : splitLines before false (line ++ newline :: rest) =
      (before ++ line) :: splitLines [] false rest := by
  induction line generalizing before with
  | nil => simp [splitLines]
  | cons c line ih =>
    have hc : c ≠ newline := fun heq => hnl (by simp [heq])
    have hc' : c ≠ carriageReturn := fun heq => hcr (by simp [heq])
    rw [List.cons_append, splitLines, if_neg hc, if_neg hc',
      ih (fun h => hnl (by simp [h])) fun h => hcr (by simp [h])]
    simp

theorem splitLines_unlines {lines : List Bytes} (hnl : ∀ l ∈ lines, newline ∉ l)
    (hcr : ∀ l ∈ lines, carriageReturn ∉ l) :
    splitLines [] false (unlines newline lines) = lines := by
  induction lines with
  | nil => rfl
  | cons line lines ih =>
    rw [unlines_cons, splitLines_line (hnl line (by simp)) (hcr line (by simp)),
      ih (fun l hl => hnl l (by simp [hl])) fun l hl => hcr l (by simp [hl]), List.nil_append]

theorem notMem_of_mem_unlines {lines : List Bytes} {rest l : Bytes} {c : UInt8}
    (h : c ∉ unlines newline lines ++ rest) (hl : l ∈ lines) : c ∉ l := by
  intro hc
  apply h
  rw [List.mem_append, unlines, List.mem_flatMap]
  exact .inl ⟨l, hl, by simp [hc]⟩

section Program
variable {loads : Bytes → Except Undecoded Json} {dumps str : Json → String}

variable (dumps str) in
/-- An object that the loop ends no exception on. -/
def Told (record : List (String × Json)) : Prop :=
  ((Json.lookup record "kind").isStr "reply" = true →
    ∃ session key, record.lookup "session" = some session ∧ session.hashed = .ok key ∧
      (record.lookup "text").isSome) ∧
  ((Json.lookup record "parent").truthy = true →
    (∀ kind ∈ ["loaded", "helpers", "reply"], (Json.lookup record "kind").isStr kind = false) →
      ∃ said, narrate dumps str record = .ok said)

variable (loads dumps str) in
/-- No JSON, or such an object. -/
def Readable (line : Bytes) : Prop :=
  loads line = .error .invalid ∨ ∃ record, loads line = .ok (.dict record) ∧ Told dumps str record

theorem takeRecord_offset (record : List (String × Json)) (watch : Watch) :
    (takeRecord dumps str record watch).1.offset = watch.offset := by
  unfold takeRecord
  dsimp only
  repeat' split
  all_goals rfl

theorem takeRecord_told {record : List (String × Json)} (h : Told dumps str record) (watch : Watch) :
    (takeRecord dumps str record watch).2 = none := by
  obtain ⟨hreply, hparent⟩ := h
  rw [takeRecord]
  by_cases hloaded : (Json.lookup record "kind").isStr "loaded" = true
  · simp [hloaded]
  by_cases hhelpers : (Json.lookup record "kind").isStr "helpers" = true
  · simp [hloaded, hhelpers]
  by_cases hkind : (Json.lookup record "kind").isStr "reply" = true
  · obtain ⟨session, key, hsession, hkey, htext⟩ := hreply hkind
    obtain ⟨text, htext⟩ := Option.isSome_iff_exists.mp htext
    simp [hloaded, hhelpers, hkind, hsession, hkey, htext]
  · by_cases htruthy : (Json.lookup record "parent").truthy = true
    · obtain ⟨said, hsaid⟩ := hparent htruthy (by simp [hloaded, hhelpers, hkind])
      simp only [hloaded, hhelpers, hkind, htruthy, hsaid]
      by_cases hempty : said = ""
      · simp [hempty]
      · simp [hempty]
    · simp [hloaded, hhelpers, hkind, htruthy]

theorem takeLine_offset (now : ℚ) (line : Bytes) (watch : Watch) :
    (takeLine loads dumps str now line watch).1.offset = watch.offset := by
  rw [takeLine]
  split
  · rfl
  · rfl
  · exact takeRecord_offset _ _
  · rfl

theorem takeLine_readable {line : Bytes} (h : Readable loads dumps str line) (now : ℚ)
    (watch : Watch) : (takeLine loads dumps str now line watch).2 = none := by
  rw [takeLine]
  rcases h with hinvalid | ⟨record, hrecord, htold⟩
  · rw [hinvalid]
  · rw [hrecord]
    exact takeRecord_told htold _

/-- The loop comes to lines from the first on, and to all of them where none ends it. -/
theorem takeLines_spec (clock : ℕ → ℚ) (lines : List Bytes) (watch : Watch) :
    (takeLines loads dumps str clock lines watch).1.offset = watch.offset ∧
      (takeLines loads dumps str clock lines watch).2.1 <+: lines ∧
      ((∀ l ∈ lines, Readable loads dumps str l) →
        (takeLines loads dumps str clock lines watch).2.1 = lines) := by
  induction lines generalizing clock watch with
  | nil => exact ⟨rfl, List.nil_prefix, fun _ => rfl⟩
  | cons line lines ih =>
    have hoffset : (takeLine loads dumps str (clock 0) line watch).1.offset = watch.offset :=
      takeLine_offset (clock 0) line watch
    have hreadable : Readable loads dumps str line →
        (takeLine loads dumps str (clock 0) line watch).2 = none :=
      fun h => takeLine_readable h (clock 0) watch
    rw [takeLines]
    generalize takeLine loads dumps str (clock 0) line watch = r at hoffset hreadable
    obtain ⟨watch', stop⟩ := r
    cases stop with
    | some stop =>
      refine ⟨hoffset, ⟨lines, rfl⟩, fun h => ?_⟩
      cases hreadable (h line (by simp))
    | none =>
      obtain ⟨hih, hprefix, hall⟩ := ih (fun n => clock (n + 1)) watch'
      refine ⟨hih.trans hoffset, List.cons_prefix_cons.mpr ⟨rfl, hprefix⟩, fun h => ?_⟩
      exact congrArg (line :: ·) (hall fun l hl => h l (by simp [hl]))

theorem or_lookup {entries : List (String × Json)} {key : String} (h : entries.lookup key = none)
    (default : Json) : (Json.lookup entries key).or default = default := by
  rw [Json.lookup, h]
  rfl

theorem narrate_isOk {record : List (String × Json)} (hpart : record.lookup "part" = none)
    (htype : record.lookup "type" = none) : ∃ said, narrate dumps str record = .ok said := by
  have hkind {kind : String} (h : (Json.lookup record "kind").isStr kind = true) :
      (record.lookup "kind").isSome := by
    cases hlookup : record.lookup "kind" with
    | none => simp [Json.lookup, hlookup, Json.isStr] at h
    | some _ => rfl
  simp only [narrate, or_lookup hpart, or_lookup htype, or_lookup List.lookup_nil, Json.get_dict,
    ok_bind]
  split_ifs with htool hcompacted hfailed htext hsynthetic hstep hlength hcut herror hown
  all_goals first
    | exact ⟨_, rfl⟩
    | exact absurd (hkind herror) hown

/-- The entries have neither a part nor a type, and a reply has its session and its text. -/
theorem told_record (t : Json) (entry : Entry) : Told dumps str (entry.record t) := by
  have hpart : (entry.record t).lookup "part" = none := by
    cases entry <;> rfl
  have htype : (entry.record t).lookup "type" = none := by
    cases entry <;> rfl
  refine ⟨fun h => ?_, fun _ _ => narrate_isOk hpart htype⟩
  cases entry with
  | reply session text => exact ⟨.str session, .str session, rfl, rfl, rfl⟩
  | _ =>
    exact absurd h (by simp [Entry.record, Entry.fields, Json.lookup, Json.isStr, List.lookup_cons])

theorem readable_record {line : Bytes} {t : Json} {entry : Entry}
    (h : loads line = .ok (.dict (entry.record t))) : Readable loads dumps str line :=
  .inr ⟨_, h, told_record t entry⟩

/-- `old` has been come to, and `rest` has not. -/
structure Reached (w : World) (old rest : Bytes) : Prop where
  records : w.records.getD [] = old ++ rest
  offset : w.watch.offset = old.length

theorem Reached.start (records : Option Bytes) (now : ℚ) :
    Reached ⟨records, .start records now⟩ (records.getD []) [] := by
  refine ⟨(List.append_nil _).symm, ?_⟩
  cases records with
  | none => rfl
  | some _ => rfl

theorem Reached.append {w : World} {old rest : Bytes} (h : Reached w old rest) (piece : Bytes) :
    Reached { w with records := some (w.records.getD [] ++ piece) } old (rest ++ piece) := by
  refine ⟨?_, h.offset⟩
  rw [Option.getD_some, h.records, List.append_assoc]

/-- A read comes to the lines that are complete, and leaves the unfinished one. -/
theorem Reached.read {w : World} {old rest : Bytes} (h : Reached w old rest) (clock : ℕ → ℚ)
    (hcr : carriageReturn ∉ rest) :
    Reached { w with watch := (read loads dumps str clock w.records w.watch).1 }
        (old ++ unlines newline (complete newline rest)) (unfinished newline rest) ∧
      (read loads dumps str clock w.records w.watch).2.1 <+: complete newline rest ∧
      ((∀ l ∈ complete newline rest, Readable loads dumps str l) →
        (read loads dumps str clock w.records w.watch).2.1 = complete newline rest) := by
  obtain ⟨records, watch⟩ := w
  have hrecords : records.getD [] = old ++ rest := h.records
  have hoffset : watch.offset = old.length := h.offset
  have hrest : records.getD [] =
      (old ++ unlines newline (complete newline rest)) ++ unfinished newline rest := by
    rw [List.append_assoc, ← unlines_complete, hrecords]
  cases records with
  | none =>
    obtain ⟨rfl, rfl⟩ := List.append_eq_nil_iff.mp hrecords.symm
    exact ⟨⟨hrest, hoffset⟩, List.nil_prefix, fun _ => rfl⟩
  | some bytes =>
    obtain rfl : bytes = old ++ rest := hrecords
    have hlines : splitLines [] false (unlines newline (complete newline rest)) =
        complete newline rest := by
      apply splitLines_unlines (fun l hl => notMem_of_mem_complete hl)
      rw [unlines_complete newline rest] at hcr
      exact fun l hl => notMem_of_mem_unlines hcr hl
    rw [RecordWatch.read, hoffset, List.drop_left, whole_eq, hlines]
    obtain ⟨hkept, hprefix, hall⟩ := takeLines_spec clock (complete newline rest)
      { watch with offset := old.length + (unlines newline (complete newline rest)).length }
    exact ⟨⟨hrest, hkept.trans (List.length_append).symm⟩, hprefix, hall⟩

/-- Whatever is appended and whenever it is read, the reads come to complete lines, in order and
each once; what they have not come to is behind the offset. -/
theorem run_spec (events : List Event) {w : World} {old rest : Bytes} (h : Reached w old rest)
    (hcr : carriageReturn ∉ rest ++ appended events) :
    ∃ lines old' rest', Reached (run loads dumps str w events).1 old' rest' ∧
      rest ++ appended events = unlines newline lines ++ rest' ∧ (∀ l ∈ lines, newline ∉ l) ∧
      (run loads dumps str w events).2.Sublist lines ∧
      ((∀ l ∈ lines, Readable loads dumps str l) →
        (run loads dumps str w events).2 = lines) := by
  induction events generalizing w old rest with
  | nil =>
    exact ⟨[], old, rest, h, by simp [appended, unlines], by simp, .slnil, fun _ => rfl⟩
  | cons event events ih =>
    cases event with
    | append piece =>
      have hmore : appended (.append piece :: events) = piece ++ appended events := rfl
      rw [hmore, ← List.append_assoc] at hcr ⊢
      exact ih (h.append piece) hcr
    | read clock =>
      have hmore : appended (.read clock :: events) = appended events := rfl
      rw [hmore] at hcr ⊢
      have hrest := unlines_complete newline rest
      obtain ⟨hnext, hprefix, hall⟩ := h.read clock fun hmem => hcr (List.mem_append_left _ hmem)
      have hcr' : carriageReturn ∉ unfinished newline rest ++ appended events := by
        intro hmem
        apply hcr
        rw [hrest, List.append_assoc]
        exact List.mem_append_right _ hmem
      obtain ⟨lines, old', rest', hreached, htext, hnl, hsub, hlater⟩ := ih hnext hcr'
      refine ⟨complete newline rest ++ lines, old', rest', hreached, ?_, ?_, ?_, ?_⟩
      · rw [unlines_append, List.append_assoc, ← htext, ← List.append_assoc, ← hrest]
      · intro l hl
        rcases List.mem_append.mp hl with hl | hl
        · exact notMem_of_mem_complete hl
        · exact hnl l hl
      · exact hprefix.sublist.append hsub
      · intro hreadable
        have hfirst := hall fun l hl => hreadable l (List.mem_append_left _ hl)
        have hthen := hlater fun l hl => hreadable l (List.mem_append_right _ hl)
        exact congrArg₂ (· ++ ·) hfirst hthen

theorem run_concat_read (w : World) (events : List Event) (clock : ℕ → ℚ) :
    run loads dumps str w (events ++ [.read clock]) =
      let out := run loads dumps str w events
      let last := read loads dumps str clock out.1.records out.1.watch
      ({ out.1 with watch := last.1 }, out.2 ++ last.2.1) := by
  induction events generalizing w with
  | nil => simp [run]
  | cons event events ih =>
    cases event with
    | append piece => exact ih _
    | read clock' =>
      simp only [List.cons_append, run, ih, List.append_assoc]

end Program

/-- `{"é":1}` -/
def accented : Bytes := [0x7b, 0x22, 0xc3, 0xa9, 0x22, 0x3a, 0x31, 0x7d]

/-- The first piece ends inside the character, and the second one has the start of a line. -/
def pieces : List Event :=
  [.append (accented.take 3), .read fun _ => 1, .append (accented.drop 3 ++ [newline, 0x7b])]

def loadsAccented (line : Bytes) : Except Undecoded Json :=
  if line = accented then .ok (.dict [("é", .int 1)]) else .error .invalid

/-- `1` and `{}` -/
def loadsNumber (line : Bytes) : Except Undecoded Json :=
  if line = [0x31] then .ok (.int 1)
  else if line = [0x7b, 0x7d] then .ok (.dict [])
  else .error .invalid

end PurdueAF.RecordWatch

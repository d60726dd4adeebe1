import Mathlib.Data.List.Infix
import Mathlib.Tactic.SplitIfs

/-!
# Chunked bodies of event streams

A body goes out in chunks, each behind its length in hexadecimal, and the events of the stream are
lines in it. Both are read a byte at a time: what is read of the beginning of a stream is the
beginning of what is read of all of it.
-/
namespace PurdueAF.EventStreams

abbrev Bytes := List UInt8

def crlf : Bytes := [13, 10]

def hex (n : ℕ) : Bytes := (Nat.toDigits 16 n).map Char.toUInt8

def frame (data : Bytes) : Bytes := hex data.length ++ crlf ++ data ++ crlf

/-- The chunk of length zero, and no trailers. -/
def lastChunk : Bytes := [48] ++ crlf ++ crlf

def hexValue (b : UInt8) : Option ℕ :=
  if 48 ≤ b.toNat ∧ b.toNat ≤ 57 then some (b.toNat - 48)
  else if 97 ≤ b.toNat ∧ b.toNat ≤ 102 then some (b.toNat - 87)
  else if 65 ≤ b.toNat ∧ b.toNat ≤ 70 then some (b.toNat - 55)
  else none

/-- What a reader expects next. -/
inductive Expect
  | size (digits : Option ℕ)
  | sizeEnd (size : ℕ)
  | data (left : ℕ)
  | dataEnd | dataEndLf
  | lastEnd | lastEndLf
  | ended
  | bad
  deriving DecidableEq, Repr

structure Body where
  expect : Expect := .size none
  read : Bytes := []
  deriving DecidableEq, Repr

/-- The next byte; neither extensions of a chunk nor trailers are known. -/
def Body.feed (s : Body) (b : UInt8) : Body :=
  match s.expect with
  | .size digits =>
    if b = 13 then
      match digits with
      | some n => { s with expect := .sizeEnd n }
      | none => { s with expect := .bad }
    else
      match hexValue b with
      | some d => { s with expect := .size (some (digits.getD 0 * 16 + d)) }
      | none => { s with expect := .bad }
  | .sizeEnd n =>
    if b = 10 then { s with expect := if n = 0 then .lastEnd else .data n }
    else { s with expect := .bad }
  | .data left => ⟨if left ≤ 1 then .dataEnd else .data (left - 1), s.read ++ [b]⟩
  | .dataEnd => { s with expect := if b = 13 then .dataEndLf else .bad }
  | .dataEndLf => { s with expect := if b = 10 then .size none else .bad }
  | .lastEnd => { s with expect := if b = 13 then .lastEndLf else .bad }
  | .lastEndLf => { s with expect := if b = 10 then .ended else .bad }
  | .ended => s
  | .bad => s

def readBody (wire : Bytes) : Body := wire.foldl Body.feed {}

theorem hexValue_digitChar (d : ℕ) (h : d < 16) :
    hexValue (Nat.digitChar d).toUInt8 = some d ∧ (Nat.digitChar d).toUInt8 ≠ 13 := by
  have hall : ∀ d < 16, hexValue (Nat.digitChar d).toUInt8 = some d ∧
      (Nat.digitChar d).toUInt8 ≠ 13 := by decide
  exact hall d h

theorem feed_digit (digits : Option ℕ) (read : Bytes) {d : ℕ} (h : d < 16) :
    Body.feed ⟨.size digits, read⟩ (Nat.digitChar d).toUInt8 =
      ⟨.size (some (digits.getD 0 * 16 + d)), read⟩ := by
  obtain ⟨hvalue, hne⟩ := hexValue_digitChar d h
  simp only [Body.feed, if_neg hne, hvalue]

theorem feed_hex (n : ℕ) (read : Bytes) :
    (hex n).foldl Body.feed ⟨.size none, read⟩ = ⟨.size (some n), read⟩ := by
  induction n using Nat.strongRecOn with
  | ind n ih =>
    unfold hex
    rw [Nat.toDigits_eq_if (by omega)]
    split_ifs with hn
    · rw [List.map_singleton, List.foldl_cons, List.foldl_nil, feed_digit none read hn]
      simp
    · rw [List.map_append, List.foldl_append, ← hex, ih (n / 16) (by omega), List.map_singleton,
        List.foldl_cons, List.foldl_nil, feed_digit _ read (Nat.mod_lt n (by omega))]
      congr 3
      rw [Option.getD_some]
      omega

theorem feed_data {data : Bytes} (hne : data ≠ []) (read : Bytes) :
    data.foldl Body.feed ⟨.data data.length, read⟩ = ⟨.dataEnd, read ++ data⟩ := by
  induction data generalizing read with
  | nil => exact absurd rfl hne
  | cons b data ih =>
    rw [List.foldl_cons]
    cases data with
    | nil => simp [Body.feed]
    | cons c rest =>
      have hfed : Body.feed ⟨.data (b :: c :: rest).length, read⟩ b =
          ⟨.data (c :: rest).length, read ++ [b]⟩ := by
        simp only [Body.feed, List.length_cons]
        rw [if_neg (by omega)]
        rfl
      rw [hfed, ih (by simp)]
      simp

/-- A chunk is read whole. -/
theorem feed_frame {data : Bytes} (hne : data ≠ []) (read : Bytes) :
    (frame data).foldl Body.feed ⟨.size none, read⟩ = ⟨.size none, read ++ data⟩ := by
  have hpos : data.length ≠ 0 := fun h => hne (List.length_eq_zero_iff.mp h)
  have hsize : crlf.foldl Body.feed ⟨.size (some data.length), read⟩ =
      ⟨.data data.length, read⟩ := by
    simp [crlf, Body.feed, hpos]
  unfold frame
  rw [List.foldl_append, List.foldl_append, List.foldl_append, feed_hex, hsize, feed_data hne]
  rfl

theorem feed_frames {chunks : List Bytes} (hne : ∀ c ∈ chunks, c ≠ []) (read : Bytes) :
    (chunks.flatMap frame).foldl Body.feed ⟨.size none, read⟩ =
      ⟨.size none, read ++ chunks.flatten⟩ := by
  induction chunks generalizing read with
  | nil => simp
  | cons c chunks ih =>
    rw [List.flatMap_cons, List.foldl_append, feed_frame (hne c (by simp)),
      ih fun d hd => hne d (by simp [hd])]
    simp

theorem feed_lastChunk (read : Bytes) :
    lastChunk.foldl Body.feed ⟨.size none, read⟩ = ⟨.ended, read⟩ := by
  rfl

/-- A chunked body is read back as what was put in its chunks. -/
theorem readBody_frames {chunks : List Bytes} (hne : ∀ c ∈ chunks, c ≠ []) :
    readBody (chunks.flatMap frame ++ lastChunk) = ⟨.ended, chunks.flatten⟩ := by
  rw [readBody, List.foldl_append, feed_frames hne, feed_lastChunk]
  rfl

theorem feed_ended (wire read : Bytes) :
    wire.foldl Body.feed ⟨.ended, read⟩ = ⟨.ended, read⟩ := by
  induction wire with
  | nil => rfl
  | cons b wire ih => exact ih

theorem read_prefix_feed (s : Body) (b : UInt8) : s.read <+: (s.feed b).read := by
  unfold Body.feed
  split
  · split_ifs
    · split <;> exact List.prefix_rfl
    · split <;> exact List.prefix_rfl
  · split_ifs <;> exact List.prefix_rfl
  · exact List.prefix_append _ _
  all_goals exact List.prefix_rfl

theorem read_prefix_foldl (s : Body) (wire : Bytes) : s.read <+: (wire.foldl Body.feed s).read := by
  induction wire generalizing s with
  | nil => exact List.prefix_rfl
  | cons b wire ih => exact (read_prefix_feed s b).trans (ih _)

/-- What is read of a beginning is a beginning of what is read. -/
theorem readBody_prefix {part wire : Bytes} (h : part <+: wire) :
    (readBody part).read <+: (readBody wire).read := by
  obtain ⟨rest, rfl⟩ := h
  unfold readBody
  rw [List.foldl_append]
  exact read_prefix_foldl _ rest

/-- A body is known to have ended at its last byte, and not before. -/
theorem eq_of_ended {part : Bytes} {chunks : List Bytes} (hne : ∀ c ∈ chunks, c ≠ [])
    (h : part <+: chunks.flatMap frame ++ lastChunk) (hended : (readBody part).expect = .ended) :
    part = chunks.flatMap frame ++ lastChunk := by
  obtain ⟨rest, hrest⟩ := h
  rcases List.eq_nil_or_concat rest with rfl | ⟨front, b, rfl⟩
  · simpa using hrest
  · exfalso
    have hcut : part ++ front = chunks.flatMap frame ++ [48, 13, 10, 13] := by
      have hlast : chunks.flatMap frame ++ lastChunk =
          (chunks.flatMap frame ++ [48, 13, 10, 13]) ++ [10] := by simp [lastChunk, crlf]
      rw [hlast, List.concat_eq_append, ← List.append_assoc] at hrest
      exact (List.append_inj' hrest rfl).1
    have hread := congrArg (List.foldl Body.feed {}) hcut
    rw [List.foldl_append, List.foldl_append, feed_frames hne] at hread
    obtain ⟨read, hpart⟩ : ∃ read, part.foldl Body.feed {} = ⟨.ended, read⟩ :=
      ⟨_, by rw [← hended]; rfl⟩
    rw [hpart, feed_ended] at hread
    exact absurd (congrArg Body.expect hread) (by simp [Body.feed, hexValue])

structure Events where
  line : Bytes := []
  /-- The last byte was a CR, which ended a line. -/
  cr : Bool := false
  /-- The data of the event that is being read, line by line. -/
  data : List Bytes := []
  told : List Bytes := []
  deriving DecidableEq, Repr

/-- `data` in bytes. -/
def dataName : Bytes := [100, 97, 116, 97]

/-- The value of a line of data: what follows the colon, without the blank that may come first.
Comments, which start with the colon, and other fields say no data. -/
def valueOf (line : Bytes) : Option Bytes :=
  if line = dataName then some []
  else if (dataName ++ [58]).isPrefixOf line then
    let value := line.drop 5
    some (if value.head? = some 32 then value.tail else value)
  else none

def Events.endLine (s : Events) : Events :=
  if s.line = [] then
    if s.data = [] then s
    else { s with data := [], told := s.told ++ [List.intercalate [10] s.data] }
  else
    match valueOf s.line with
    | some value => { s with line := [], data := s.data ++ [value] }
    | none => { s with line := [] }

def Events.feed (s : Events) (b : UInt8) : Events :=
  if b = 10 then
    if s.cr then { s with cr := false } else s.endLine
  else if b = 13 then { s.endLine with cr := true }
  else { s with line := s.line ++ [b], cr := false }

/-- What a client was told by the part of the wire that came. -/
def heard (wire : Bytes) : List Bytes := ((readBody wire).read.foldl Events.feed {}).told

/-- No byte that ends a line. -/
def Lineless (text : Bytes) : Prop := ∀ b ∈ text, b ≠ 10 ∧ b ≠ 13

instance (text : Bytes) : Decidable (Lineless text) :=
  List.decidableBAll (p := fun b => b ≠ 10 ∧ b ≠ 13) text

/-- A comment, which tells nothing and keeps the connection alive, or an event. -/
inductive Message
  | comment (text : Bytes)
  | event (data : Bytes)
  deriving DecidableEq, Repr

def Message.text : Message → Bytes
  | .comment text => text
  | .event data => data

def Message.line : Message → Bytes
  | .comment text => 58 :: text
  | .event data => dataName ++ [58, 32] ++ data

def Message.bytes (m : Message) : Bytes := m.line ++ [10, 10]

def Message.event? : Message → Option Bytes
  | .comment _ => none
  | .event data => some data

/-- The messages, each in a chunk of its own. -/
def frames (ms : List Message) : Bytes := ms.flatMap fun m => frame m.bytes

theorem feed_line {line text : Bytes} (h : Lineless text) (data told : List Bytes) :
    text.foldl Events.feed ⟨line, false, data, told⟩ = ⟨line ++ text, false, data, told⟩ := by
  induction text generalizing line with
  | nil => simp
  | cons b text ih =>
    obtain ⟨h10, h13⟩ := h b (by simp)
    rw [List.foldl_cons, Events.feed, if_neg h10, if_neg h13, ih fun c hc => h c (by simp [hc])]
    simp

theorem lineless_line {m : Message} (h : Lineless m.text) : Lineless m.line := by
  cases m with
  | comment text =>
    intro b hb
    rcases List.mem_cons.mp hb with rfl | hb
    · exact ⟨by decide, by decide⟩
    · exact h b hb
  | event data =>
    intro b hb
    rcases List.mem_append.mp hb with hb | hb
    · have hname : Lineless (dataName ++ [58, 32]) := by decide
      exact hname b hb
    · exact h b hb

theorem valueOf_line (m : Message) : valueOf m.line = m.event? := by
  cases m with
  | comment text => simp [Message.line, Message.event?, valueOf, dataName]
  | event data => simp [Message.line, Message.event?, valueOf, dataName]

theorem feed_message {m : Message} (h : Lineless m.text) (told : List Bytes) :
    m.bytes.foldl Events.feed ⟨[], false, [], told⟩ = ⟨[], false, [], told ++ m.event?.toList⟩ := by
  have hne : m.line ≠ [] := by cases m <;> simp [Message.line, dataName]
  unfold Message.bytes
  rw [List.foldl_append, feed_line (lineless_line h), List.nil_append, List.foldl_cons,
    List.foldl_cons, List.foldl_nil]
  have hend : Events.feed ⟨m.line, false, [], told⟩ 10 = ⟨[], false, m.event?.toList, told⟩ := by
    simp only [Events.feed, if_true, Bool.false_eq_true, if_false, Events.endLine, if_neg hne,
      valueOf_line]
    cases m.event? <;> rfl
  rw [hend]
  cases m with
  | comment text => simp [Events.feed, Events.endLine, Message.event?]
  | event data => simp [Events.feed, Events.endLine, Message.event?, List.intercalate]

theorem feed_messages {ms : List Message} (h : ∀ m ∈ ms, Lineless m.text) (told : List Bytes) :
    ((ms.map Message.bytes).flatten).foldl Events.feed ⟨[], false, [], told⟩ =
      ⟨[], false, [], told ++ ms.filterMap Message.event?⟩ := by
  induction ms generalizing told with
  | nil => simp
  | cons m ms ih =>
    rw [List.map_cons, List.flatten_cons, List.foldl_append, feed_message (h m (by simp)),
      ih fun d hd => h d (by simp [hd])]
    cases hm : m.event? <;> simp [hm]

theorem told_prefix_feed (s : Events) (b : UInt8) : s.told <+: (s.feed b).told := by
  have hend : s.told <+: s.endLine.told := by
    unfold Events.endLine
    split_ifs
    · exact List.prefix_rfl
    · exact List.prefix_append _ _
    · split <;> exact List.prefix_rfl
  unfold Events.feed
  split_ifs
  · exact List.prefix_rfl
  · exact hend
  · exact hend
  · exact List.prefix_rfl

theorem told_prefix_foldl (s : Events) (text : Bytes) :
    s.told <+: (text.foldl Events.feed s).told := by
  induction text generalizing s with
  | nil => exact List.prefix_rfl
  | cons b text ih => exact (told_prefix_feed s b).trans (ih _)

/-- What is heard of a beginning is a beginning of what is heard. -/
theorem heard_prefix {part wire : Bytes} (h : part <+: wire) : heard part <+: heard wire := by
  obtain ⟨rest, hrest⟩ := readBody_prefix h
  unfold heard
  rw [← hrest, List.foldl_append]
  exact told_prefix_foldl _ rest

theorem bytes_ne_nil (m : Message) : m.bytes ≠ [] := by simp [Message.bytes]

theorem frames_eq (ms : List Message) : frames ms = (ms.map Message.bytes).flatMap frame := by
  simp [frames, List.flatMap_map]

/-- A client that reads all of a stream hears its events, and knows that it ended. -/
theorem heard_frames {ms : List Message} (h : ∀ m ∈ ms, Lineless m.text) :
    heard (frames ms ++ lastChunk) = ms.filterMap Message.event? ∧
      (readBody (frames ms ++ lastChunk)).expect = .ended := by
  have hread : readBody (frames ms ++ lastChunk) = ⟨.ended, (ms.map Message.bytes).flatten⟩ := by
    rw [frames_eq]
    refine readBody_frames fun c hc => ?_
    obtain ⟨m, -, rfl⟩ := List.mem_map.mp hc
    exact bytes_ne_nil m
  refine ⟨?_, by rw [hread]⟩
  unfold heard
  rw [hread, feed_messages h]
  rfl

/-- One that reads a part of it hears the first of the events, and all if it knows of the end. -/
theorem heard_of_prefix {ms : List Message} (h : ∀ m ∈ ms, Lineless m.text) {part : Bytes}
    (hpart : part <+: frames ms ++ lastChunk) : heard part <+: ms.filterMap Message.event? ∧
      ((readBody part).expect = .ended → part = frames ms ++ lastChunk) := by
  refine ⟨(heard_frames h).1 ▸ heard_prefix hpart, fun hended => ?_⟩
  rw [frames_eq] at hpart ⊢
  refine eq_of_ended (fun c hc => ?_) hpart hended
  obtain ⟨m, -, rfl⟩ := List.mem_map.mp hc
  exact bytes_ne_nil m

end PurdueAF.EventStreams

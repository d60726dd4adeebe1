import Mathlib.Algebra.GroupWithZero.Nat
import PurdueAF.Utf8

/-!
# The logs kept of an ended job

`keepLogs` collects the messages of a job's log tail in a buffer, of which it drops the front
whenever the buffer passes twice the limit. Whether lines were cut it tells from the length of
the buffer in the end.
-/
namespace PurdueAF.RayLogs
open Utf8

def logBytes : ℕ := 900 * 2 ^ 10

/-- `bytes[-limit:]`. -/
def lastBytes (limit : ℕ) (bytes : List UInt8) : List UInt8 := bytes.drop (bytes.length - limit)

/-- A message of the websocket. -/
inductive Message
  | text (data : String)
  | other
  deriving DecidableEq, Repr

def receive (kept : List UInt8) (data : String) : List UInt8 :=
  let kept := kept ++ encode data.toList
  if 2 * logBytes < kept.length then lastBytes logBytes kept else kept

/-- The buffer at the end of the tail, or at the first message that is no text. -/
def tail (kept : List UInt8) : List Message → List UInt8
  | .text data :: messages => tail (receive kept data) messages
  | _ => kept

def note : List Char := "[the first lines are cut: only the last 900 KiB are kept]\n".toList

/-- The text stored in the ConfigMap. -/
def keepLogs (messages : List Message) : List Char :=
  let kept := tail [] messages
  let logs := decode (lastBytes logBytes kept)
  if logBytes < kept.length then note ++ afterFirst '\n' logs else logs

/-- The text that is to be stored of the bytes of all messages together. -/
def logsOf (bytes : List UInt8) : List Char :=
  if bytes.length ≤ logBytes then decode bytes
  else note ++ decode (afterFirst 10 (lastBytes logBytes bytes))

def bytesOf (texts : List String) : List UInt8 := texts.flatMap fun data => encode data.toList

def sizeOf (data : String) : ℕ := (encode data.toList).length

/-- The messages end, but for empty ones, with one that is more than still fits: `fits` bytes do
at first, and the limit's after each such message. -/
def endsOver (fits : ℕ) : List ℕ → Bool
  | [] => false
  | n :: sizes =>
    if fits < n then sizes.all (· = 0) || endsOver logBytes sizes else endsOver (fits - n) sizes

theorem logBytes_pos : 0 < logBytes := by decide

theorem length_lastBytes (limit : ℕ) (bytes : List UInt8) :
    (lastBytes limit bytes).length = min limit bytes.length := by
  rw [lastBytes, List.length_drop]
  omega

theorem lastBytes_of_le {limit : ℕ} {bytes : List UInt8} (h : bytes.length ≤ limit) :
    lastBytes limit bytes = bytes := by
  rw [lastBytes, Nat.sub_eq_zero_of_le h, List.drop_zero]

theorem lastBytes_append_of_le {limit : ℕ} {bytes : List UInt8} (h : limit ≤ bytes.length)
    (front : List UInt8) : lastBytes limit (front ++ bytes) = lastBytes limit bytes := by
  have hlen : (front ++ bytes).length - limit = front.length + (bytes.length - limit) := by
    rw [List.length_append]
    omega
  rw [lastBytes, lastBytes, hlen, List.drop_length_add_append]

/-- What is dropped at the front was not to be kept. -/
theorem lastBytes_append (limit : ℕ) (front bytes : List UInt8) :
    lastBytes limit (lastBytes limit front ++ bytes) = lastBytes limit (front ++ bytes) := by
  rcases Nat.le_total front.length limit with h | h
  · rw [lastBytes_of_le h]
  · have hsplit : front.take (front.length - limit) ++ lastBytes limit front = front :=
      List.take_append_drop _ _
    have hle : limit ≤ (lastBytes limit front ++ bytes).length := by
      rw [List.length_append, length_lastBytes]
      omega
    conv_rhs => rw [← hsplit, List.append_assoc]
    exact (lastBytes_append_of_le hle _).symm

theorem lastBytes_receive (kept : List UInt8) (data : String) (bytes : List UInt8) :
    lastBytes logBytes (receive kept data ++ bytes) =
      lastBytes logBytes (kept ++ encode data.toList ++ bytes) := by
  rw [receive]
  split_ifs
  · exact lastBytes_append _ _ _
  · rfl

/-- Its end is that of all the bytes, however they arrive. -/
theorem lastBytes_tail (kept : List UInt8) (texts : List String) :
    lastBytes logBytes (tail kept (texts.map .text)) =
      lastBytes logBytes (kept ++ bytesOf texts) := by
  induction texts generalizing kept with
  | nil => simp [tail, bytesOf]
  | cons data texts ih =>
    rw [List.map_cons, tail, ih, lastBytes_receive]
    simp [bytesOf]

theorem length_receive (kept : List UInt8) (data : String) :
    (receive kept data).length =
      if 2 * logBytes < kept.length + sizeOf data then logBytes
      else kept.length + sizeOf data := by
  have hpos := logBytes_pos
  unfold receive sizeOf
  simp only [List.length_append]
  split_ifs with h
  · rw [length_lastBytes, List.length_append]
    omega
  · exact List.length_append

theorem endsOver_lt {fits : ℕ} {sizes : List ℕ} (h : endsOver fits sizes = true) :
    fits < sizes.sum := by
  induction sizes generalizing fits with
  | nil => cases h
  | cons n sizes ih =>
    rw [endsOver] at h
    rw [List.sum_cons]
    split_ifs at h with hn
    · omega
    · have := ih h
      omega

/-- The buffer is no longer than the limit if the bytes are not, or if it was just cut. -/
theorem length_tail_le {kept : List UInt8} (h : kept.length ≤ 2 * logBytes) (texts : List String) :
    (tail kept (texts.map .text)).length ≤ logBytes ↔
      kept.length + (texts.map sizeOf).sum ≤ logBytes ∨
      endsOver (2 * logBytes - kept.length) (texts.map sizeOf) = true := by
  induction texts generalizing kept with
  | nil => simp [tail, endsOver]
  | cons data texts ih =>
    have hlen := length_receive kept data
    rw [List.map_cons, List.map_cons, tail, endsOver, List.sum_cons]
    by_cases hcut : 2 * logBytes < kept.length + sizeOf data
    · rw [if_pos hcut] at hlen
      have hzero : (texts.map sizeOf).sum = 0 ↔ (texts.map sizeOf).all (· = 0) = true := by
        simp [List.sum_eq_zero_iff_forall_eq_nat]
      rw [ih (by omega), hlen, if_pos (by omega), Bool.or_eq_true, ← hzero]
      have hfits : 2 * logBytes - logBytes = logBytes := by omega
      rw [hfits]
      constructor
      · rintro (hsum | hends)
        · exact .inr (.inl (by omega))
        · exact .inr (.inr hends)
      · rintro (hsum | hsum | hends)
        · omega
        · exact .inl (by omega)
        · exact .inr hends
    · rw [if_neg hcut] at hlen
      rw [ih (by omega), hlen, if_neg (by omega)]
      have hfits : 2 * logBytes - (kept.length + sizeOf data) =
          2 * logBytes - kept.length - sizeOf data := by omega
      rw [hfits, Nat.add_assoc]

theorem length_bytesOf (texts : List String) :
    (bytesOf texts).length = (texts.map sizeOf).sum := by
  induction texts with
  | nil => rfl
  | cons data texts ih =>
    rw [bytesOf, List.flatMap_cons, List.length_append, ← bytesOf, ih]
    rfl

theorem note_eq :
    note = "[the first lines are cut: only the last 900 KiB are kept]".toList ++ ['\n'] := by
  decide +kernel

/-- A text that starts with the note has it as its first line. -/
theorem eq_note_append {text : List Char} :
    text = note ++ afterFirst '\n' text ↔ note <+: text := by
  constructor
  · intro h
    exact ⟨_, h.symm⟩
  · rintro ⟨rest, rfl⟩
    have hline : '\n' ∉ "[the first lines are cut: only the last 900 KiB are kept]".toList := by
      decide +kernel
    rw [note_eq, List.append_assoc, List.singleton_append, afterFirst_append hline,
      List.append_assoc, List.singleton_append]

/-- A cut log says so, and goes on after a newline. -/
theorem logsOf_cut {bytes : List UInt8} (h : logBytes < bytes.length) :
    ∃ rest, logsOf bytes = note ++ decode rest ∧
      (rest = [] ∨ ∃ before, bytes = before ++ 10 :: rest) := by
  refine ⟨_, if_neg (by omega), ?_⟩
  by_cases hmem : 10 ∈ lastBytes logBytes bytes
  · obtain ⟨before, rest, heq, hbefore⟩ := List.eq_append_cons_of_mem hmem
    refine .inr ⟨bytes.take (bytes.length - logBytes) ++ before, ?_⟩
    rw [heq, afterFirst_append hbefore, List.append_assoc, ← heq]
    exact (List.take_append_drop _ _).symm
  · exact .inl (afterFirst_of_not_mem hmem)

/-- What is stored is determined by the bytes alone, and says so where it is cut. -/
structure Faithful (texts : List String) : Prop where
  stored : keepLogs (texts.map .text) = logsOf (bytesOf texts)
  cut : logBytes < (bytesOf texts).length →
    ∃ rest, keepLogs (texts.map .text) = note ++ decode rest ∧
      (rest = [] ∨ ∃ before, bytesOf texts = before ++ 10 :: rest)

theorem keepLogs_eq (texts : List String) :
    keepLogs (texts.map .text) =
      if (bytesOf texts).length ≤ logBytes ∨
          endsOver (2 * logBytes) (texts.map sizeOf) = true then
        decode (lastBytes logBytes (bytesOf texts))
      else note ++ afterFirst '\n' (decode (lastBytes logBytes (bytesOf texts))) := by
  have hlen := @length_tail_le [] (Nat.zero_le _) texts
  rw [List.length_nil, Nat.zero_add, Nat.sub_zero, ← length_bytesOf] at hlen
  have hlast := lastBytes_tail [] texts
  rw [List.nil_append] at hlast
  rw [keepLogs]
  simp only [hlast]
  by_cases h : (tail [] (texts.map .text)).length ≤ logBytes
  · rw [if_neg (by omega), if_pos (hlen.mp h)]
  · rw [if_pos (by omega), if_neg fun hor => h (hlen.mpr hor)]

/-- The logs are kept as they are to be unless the last message to arrive brought the buffer
past twice the limit; then only a log that reads like a cut one is. -/
theorem faithful_iff (texts : List String) :
    Faithful texts ↔
      endsOver (2 * logBytes) (texts.map sizeOf) = false ∨
      note <+: decode (lastBytes logBytes (bytesOf texts)) := by
  have hstored : Faithful texts ↔ keepLogs (texts.map .text) = logsOf (bytesOf texts) := by
    refine ⟨Faithful.stored, fun h => ⟨h, fun hlong => ?_⟩⟩
    rw [h]
    exact logsOf_cut hlong
  rw [hstored, keepLogs_eq, logsOf, ← afterFirst_decode]
  by_cases hshort : (bytesOf texts).length ≤ logBytes
  · have hends : endsOver (2 * logBytes) (texts.map sizeOf) = false := by
      by_contra hne
      have hlt := endsOver_lt (Bool.not_eq_false _ ▸ hne)
      rw [← length_bytesOf] at hlt
      omega
    rw [if_pos (.inl hshort), if_pos hshort, lastBytes_of_le hshort]
    exact iff_of_true rfl (.inl hends)
  rw [if_neg hshort]
  cases hends : endsOver (2 * logBytes) (texts.map sizeOf) with
  | false =>
    rw [if_neg (by simp [hshort])]
    exact iff_of_true rfl (.inl rfl)
  | true =>
    rw [if_pos (.inr rfl), eq_note_append]
    simp

theorem encode_replicate (n : ℕ) : encode (List.replicate n 'a') = List.replicate n 97 := by
  induction n with
  | zero => rfl
  | succ n ih =>
    have ha : String.utf8EncodeChar 'a' = [97] := by decide
    rw [List.replicate_succ, encode, List.flatMap_cons, ← encode, ih, ha]
    rfl

/-- One message of letters, one more than twice the limit: nothing says that its front is gone. -/
theorem not_faithful_letters :
    ¬Faithful [String.ofList (List.replicate (2 * logBytes + 1) 'a')] := by
  have hbytes : bytesOf [String.ofList (List.replicate (2 * logBytes + 1) 'a')] =
      List.replicate (2 * logBytes + 1) 97 := by
    rw [bytesOf, List.flatMap_singleton, String.toList_ofList, encode_replicate]
  have hends : endsOver (2 * logBytes)
      ([String.ofList (List.replicate (2 * logBytes + 1) 'a')].map sizeOf) = true := by
    rw [List.map_singleton, sizeOf, String.toList_ofList, encode_replicate, List.length_replicate,
      endsOver, if_pos (by omega)]
    rfl
  have hlast : lastBytes logBytes (List.replicate (2 * logBytes + 1) 97) =
      encode (List.replicate logBytes 'a') := by
    have hleft : 2 * logBytes + 1 - (2 * logBytes + 1 - logBytes) = logBytes := by omega
    rw [encode_replicate, lastBytes, List.length_replicate, List.drop_replicate, hleft]
  intro h
  obtain ⟨rest, hrest, -⟩ := h.cut (by
    rw [hbytes, List.length_replicate]
    omega)
  rw [keepLogs_eq, if_pos (.inr hends), hbytes, hlast, decode_encode] at hrest
  have hmem : '[' ∈ List.replicate logBytes 'a' := by
    rw [hrest, note_eq]
    simp
  exact absurd (List.eq_of_mem_replicate hmem) (by decide)

end PurdueAF.RayLogs

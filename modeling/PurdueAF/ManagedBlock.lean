import PurdueAF.TextSearch
import PurdueAF.AfVersion
import Mathlib.Data.List.DropRight

/-!
# The facility's section in a user's agent file

`managed-block.py` replaces what stands between two markers in a file that is the user's
otherwise, or appends it. It runs at every start of a session, each time with the section of the
image of that day.
-/
namespace PurdueAF.ManagedBlock
open TextSearch Py
open AfVersion (readText readText_free readText_eq_self)

abbrev Text := List Char

def begin_ : Text := "<!-- BEGIN PURDUE AF — managed, edits inside are overwritten -->".toList
def end_ : Text := "<!-- END PURDUE AF -->".toList

/-- `text.rstrip("\n")` -/
def rstripNl (text : Text) : Text := text.rdropWhile (· = '\n')

/-- `text.lstrip("\n")` -/
def lstripNl (text : Text) : Text := text.dropWhile (· = '\n')

/-- `"\n\n".join` -/
def joinParts : List Text → Text
  | [] => []
  | [part] => part
  | part :: parts => part ++ '\n' :: '\n' :: joinParts parts

/-- `render` -/
def render (section_ : Text) : Text := begin_ ++ '\n' :: (stripSpace section_ ++ '\n' :: end_)

/-- Where the markers are: the first beginning, and the first end after it. -/
def markers (existing : Text) : Option (ℕ × ℕ) :=
  match find begin_ existing with
  | none => none
  | some start => (findFrom end_ existing start).map fun stop => (start, stop)

/-- `apply_block` -/
def applyBlock (existing section_ : Text) : Text :=
  let block := render section_
  match markers existing with
  | none =>
    if stripSpace existing = [] then block ++ ['\n']
    else rstripNl existing ++ '\n' :: '\n' :: (block ++ ['\n'])
  | some (start, stop) =>
    let head := rstripNl (existing.take start)
    let tail := lstripNl (existing.drop (stop + end_.length))
    joinParts ([head, block, rstripNl tail].filter (· ≠ [])) ++ ['\n']

/-- What the script reads of the target, which need not exist. -/
def reads (target : Option Text) : Text := (target.map readText).getD []

/-- `main`: the target's text afterwards, which is written where what was read of it differs. -/
def main (target : Option Text) (section_ : Text) : Option Text :=
  let existing := reads target
  let updated := applyBlock existing (readText section_)
  if updated ≠ existing then some updated else target

/-- A section that does not end its own block. -/
def Clean (section_ : Text) : Prop := ¬end_ <:+: stripSpace (readText section_)

/-- A text whose first beginning of a block no end follows. -/
def LeftOpen (existing : Text) : Prop := begin_ <:+: existing ∧ markers existing = none

/-- The block around a section as it is stripped. -/
def block (sec : Text) : Text := begin_ ++ '\n' :: (sec ++ '\n' :: end_)

/-- A file of the user's text before and after the block. -/
def doc (head sec tail : Text) : Text :=
  joinParts ([head, block sec, tail].filter (· ≠ [])) ++ ['\n']

/-- The user's text around a block: none begins before it, and it is joined by blank lines. -/
structure Outside (head tail : Text) : Prop where
  before : ¬begin_ <:+: head
  trimmed : rstripNl head = head
  started : lstripNl tail = tail
  ended : rstripNl tail = tail

theorem nl_not_mem_begin : '\n' ∉ begin_ := by decide +kernel
theorem nl_not_mem_end : '\n' ∉ end_ := by decide +kernel
theorem begin_ne_nil : begin_ ≠ [] := by decide +kernel
theorem end_ne_nil : end_ ≠ [] := by decide +kernel
theorem end_not_in_begin : ¬end_ <:+: begin_ := find_eq_none.mp (by decide +kernel)

theorem block_ne_nil (sec : Text) : block sec ≠ [] := by
  simp [block]

theorem rstripNl_isPrefix (text : Text) : rstripNl text <+: text := List.rdropWhile_prefix _ text

theorem rstripNl_append_nl (text : Text) : rstripNl (text ++ ['\n']) = rstripNl text :=
  List.rdropWhile_concat_pos _ _ _ (by simp)

theorem rstripNl_idem (text : Text) : rstripNl (rstripNl text) = rstripNl text :=
  List.rdropWhile_idempotent _ _

theorem lstripNl_idem (text : Text) : lstripNl (lstripNl text) = lstripNl text :=
  List.dropWhile_idempotent _ _

/-- Taking newlines from the end gives the beginning none. -/
theorem lstripNl_rstripNl {text : Text} (h : lstripNl text = text) :
    lstripNl (rstripNl text) = rstripNl text := by
  obtain ⟨rest, hrest⟩ := rstripNl_isPrefix text
  generalize rstripNl text = short at *
  cases short with
  | nil => rfl
  | cons c short =>
    subst hrest
    by_cases hc : c = '\n'
    · have hlen := congrArg List.length h
      have hle := List.length_dropWhile_le (fun d : Char => decide (d = '\n')) (short ++ rest)
      simp only [lstripNl, List.cons_append, List.dropWhile_cons, hc, decide_true, if_true] at hlen
      simp only [List.length_cons] at hlen
      omega
    · simp [lstripNl, hc]

/-- Where the block ends, from its beginning. -/
theorem find_end_block {sec post : Text} (hsec : ¬end_ <:+: sec) :
    find end_ (block sec ++ post) = some (begin_.length + 1 + (sec.length + 1)) := by
  have htext : block sec ++ post = begin_ ++ '\n' :: (sec ++ '\n' :: (end_ ++ post)) := by
    simp [block]
  rw [htext, find_sep nl_not_mem_end end_ne_nil end_not_in_begin,
    find_sep nl_not_mem_end end_ne_nil hsec, find_append_self end_ne_nil]
  simp only [Option.map_some, Option.some.injEq]
  omega

theorem length_block (sec : Text) :
    (block sec).length = begin_.length + 1 + (sec.length + 1) + end_.length := by
  simp only [block, List.length_append, List.length_cons]
  omega

/-- The markers of a file in three parts, of which the first holds no beginning. -/
theorem markers_block {pre sec post : Text} (hpre : find begin_ (pre ++ (block sec ++ post)) =
    some pre.length) (hsec : ¬end_ <:+: sec) :
    markers (pre ++ (block sec ++ post)) =
      some (pre.length, begin_.length + 1 + (sec.length + 1) + pre.length) := by
  unfold markers findFrom
  rw [hpre]
  dsimp only
  rw [List.drop_left, find_end_block hsec]
  rfl

/-- The file's text apart from the block, whatever section it gets. -/
theorem applyBlock_block {pre sec post : Text} (hpre : find begin_ (pre ++ (block sec ++ post)) =
    some pre.length) (hsec : ¬end_ <:+: sec) (s : Text) :
    applyBlock (pre ++ (block sec ++ post)) s =
      doc (rstripNl pre) (stripSpace s) (rstripNl (lstripNl post)) := by
  have hdrop : (pre ++ (block sec ++ post)).drop
      (begin_.length + 1 + (sec.length + 1) + pre.length + end_.length) = post := by
    have hlen : begin_.length + 1 + (sec.length + 1) + pre.length + end_.length =
        (pre ++ block sec).length := by
      rw [List.length_append, length_block]
      omega
    rw [← List.append_assoc, hlen, List.drop_left]
  unfold applyBlock
  rw [markers_block hpre hsec]
  dsimp only
  rw [List.take_left, hdrop]
  rfl

theorem find_begin_block {sec post : Text} : find begin_ (block sec ++ post) = some 0 := by
  have htext : block sec ++ post = begin_ ++ ('\n' :: (sec ++ '\n' :: end_) ++ post) := by
    simp [block]
  rw [htext]
  exact find_append_self begin_ne_nil

/-- What stands before the block, and after it. -/
def lead (head : Text) : Text := if head = [] then [] else head ++ ['\n', '\n']
def trail (tail : Text) : Text := if tail = [] then ['\n'] else '\n' :: '\n' :: (tail ++ ['\n'])

theorem doc_eq (head sec tail : Text) :
    doc head sec tail = lead head ++ (block sec ++ trail tail) := by
  have hblock := block_ne_nil sec
  by_cases hhead : head = [] <;> by_cases htail : tail = [] <;>
    simp [doc, lead, trail, joinParts, hhead, htail, hblock]

theorem find_lead {head : Text} (h : ¬begin_ <:+: head) (sec post : Text) :
    find begin_ (lead head ++ (block sec ++ post)) = some (lead head).length := by
  unfold lead
  split_ifs with hhead
  · exact find_begin_block
  · have htext : head ++ ['\n', '\n'] ++ (block sec ++ post) =
        head ++ '\n' :: ([] ++ '\n' :: (block sec ++ post)) := by simp
    rw [htext, find_sep nl_not_mem_begin begin_ne_nil h,
      find_sep nl_not_mem_begin begin_ne_nil (by simp [begin_ne_nil]), find_begin_block]
    simp only [Option.map_some, List.length_nil, List.length_append, List.length_cons,
      Option.some.injEq]
    omega

theorem rstripNl_lead {head : Text} (h : rstripNl head = head) : rstripNl (lead head) = head := by
  unfold lead
  split_ifs with hhead
  · rw [hhead]
    rfl
  · have htext : head ++ ['\n', '\n'] = head ++ ['\n'] ++ ['\n'] := by simp
    rw [htext, rstripNl_append_nl, rstripNl_append_nl, h]

theorem strip_trail {tail : Text} (hstart : lstripNl tail = tail) (hend : rstripNl tail = tail) :
    rstripNl (lstripNl (trail tail)) = tail := by
  unfold trail
  split_ifs with htail
  · rw [htail]
    rfl
  · cases tail with
    | nil => exact absurd rfl htail
    | cons c tail =>
      have hc : c ≠ '\n' := by
        rintro rfl
        have hlen := congrArg List.length hstart
        have hle := List.length_dropWhile_le (fun d : Char => decide (d = '\n')) tail
        simp only [lstripNl, List.dropWhile_cons, decide_true, if_true] at hlen
        simp only [List.length_cons] at hlen
        omega
      have hskip : lstripNl ('\n' :: '\n' :: (c :: tail ++ ['\n'])) = c :: tail ++ ['\n'] := by
        simp [lstripNl, hc]
      rw [hskip, rstripNl_append_nl, hend]

/-- The user's text stays as it is, and the section is replaced. -/
theorem applyBlock_doc {head sec tail : Text} (h : Outside head tail) (hsec : ¬end_ <:+: sec)
    (s : Text) : applyBlock (doc head sec tail) s = doc head (stripSpace s) tail := by
  rw [doc_eq, applyBlock_block (find_lead h.before sec _) hsec, rstripNl_lead h.trimmed,
    strip_trail h.started h.ended]

/-- A file that is not left open is the user's text around whatever section it gets. -/
theorem applyBlock_closed {existing : Text} (h : ¬LeftOpen existing) :
    ∃ head tail, Outside head tail ∧ ∀ s, applyBlock existing s = doc head (stripSpace s) tail := by
  cases hmarkers : markers existing with
  | none =>
    have hnone : ¬begin_ <:+: existing := fun hin => h ⟨hin, hmarkers⟩
    by_cases hblank : stripSpace existing = []
    · refine ⟨[], [], ⟨by simp [begin_ne_nil], rfl, rfl, rfl⟩, fun s => ?_⟩
      unfold applyBlock
      rw [hmarkers]
      dsimp only
      rw [if_pos hblank, doc_eq]
      rfl
    · have hne : rstripNl existing ≠ [] := by
        intro hnil
        have hall : ∀ c ∈ existing, isSpace c = true := by
          intro c hc
          have hnl : c = '\n' := by simpa using List.rdropWhile_eq_nil_iff.mp hnil c hc
          rw [hnl]
          rfl
        exact hblank (by simp [stripSpace, List.dropWhile_eq_nil_iff.mpr hall])
      refine ⟨rstripNl existing, [], ⟨fun hin => hnone (hin.trans (rstripNl_isPrefix existing).isInfix),
        rstripNl_idem existing, rfl, rfl⟩, fun s => ?_⟩
      unfold applyBlock
      rw [hmarkers]
      dsimp only
      rw [if_neg hblank, doc_eq]
      simp [lead, hne, trail, block, render]
  | some place =>
    obtain ⟨start, stop⟩ := place
    have hstart : find begin_ existing = some start := by
      unfold markers at hmarkers
      split at hmarkers
      · cases hmarkers
      · rename_i i hi
        obtain ⟨j, -, hj⟩ := Option.map_eq_some_iff.mp hmarkers
        rw [hi, (Prod.mk.inj hj).1]
    refine ⟨rstripNl (existing.take start),
      rstripNl (lstripNl (existing.drop (stop + end_.length))), ⟨fun hin => ?_, rstripNl_idem _,
        lstripNl_rstripNl (lstripNl_idem _), rstripNl_idem _⟩, fun s => ?_⟩
    · exact (of_find hstart).2.2 begin_ne_nil (hin.trans (rstripNl_isPrefix _).isInfix)
    · unfold applyBlock
      rw [hmarkers]
      rfl

theorem begin_in_rstripNl {text : Text} (h : begin_ <:+: text) : begin_ <:+: rstripNl text := by
  induction text using List.reverseRecOn with
  | nil => exact h
  | append_singleton text c ih =>
    by_cases hc : c = '\n'
    · subst hc
      rw [rstripNl_append_nl]
      rcases infix_sep nl_not_mem_begin begin_ne_nil h with hin | hin
      · exact ih hin
      · exact absurd (List.infix_nil.mp hin) begin_ne_nil
    · have hkept : rstripNl (text ++ [c]) = text ++ [c] :=
        List.rdropWhile_concat_neg _ _ _ (by simpa using hc)
      rw [hkept]
      exact h

/-- Where the block begins that nothing ends. -/
theorem open_start {existing : Text} (h : LeftOpen existing) :
    ∃ start rest, find begin_ (rstripNl existing) = some start ∧
      existing = rstripNl existing ++ rest ∧ ¬end_ <:+: (rstripNl existing).drop start := by
  obtain ⟨start, hstart⟩ : ∃ start, find begin_ (rstripNl existing) = some start := by
    rw [← Option.ne_none_iff_exists']
    intro hnone
    exact find_eq_none.mp hnone (begin_in_rstripNl h.1)
  obtain ⟨rest, hrest⟩ := rstripNl_isPrefix existing
  refine ⟨start, rest, hstart, hrest.symm, fun hin => ?_⟩
  have hfind : find begin_ existing = some start := by
    rw [← hrest]
    exact find_append hstart
  have hnone : findFrom end_ existing start = none := by
    have hmarkers := h.2
    unfold markers at hmarkers
    rw [hfind] at hmarkers
    exact Option.map_eq_none_iff.mp hmarkers
  refine find_eq_none.mp (Option.map_eq_none_iff.mp hnone) (hin.trans ?_)
  exact ((rstripNl_isPrefix existing).drop start).isInfix

/-- What is appended to a file left open, which is not blank. -/
theorem applyBlock_first {existing : Text} (h : LeftOpen existing) (s : Text) :
    applyBlock existing s =
      rstripNl existing ++ '\n' :: ([] ++ '\n' :: (block (stripSpace s) ++ ['\n'])) := by
  have hmem : '<' ∈ existing := h.1.subset (by decide +kernel)
  have hne : stripSpace existing ≠ [] := by
    intro hnil
    have hall : existing.dropWhile isSpace = [] := by
      rw [← List.dropWhile_idempotent, List.dropWhile_eq_nil_iff]
      intro c hc
      have hrest := List.dropWhile_eq_nil_iff.mp (List.reverse_eq_nil_iff.mp hnil)
      exact hrest c (List.mem_reverse.mpr hc)
    exact absurd (List.dropWhile_eq_nil_iff.mp hall '<' hmem) (by decide)
  unfold applyBlock
  rw [h.2]
  dsimp only
  rw [if_neg hne]
  rfl

/-- The next run takes the appended block's end for the end of the open one. -/
theorem applyBlock_open {existing : Text} (h : LeftOpen existing) {s₁ : Text}
    (hclean : ¬end_ <:+: stripSpace s₁) :
    ∃ start, start < (rstripNl existing).length ∧ ∀ s,
      applyBlock (applyBlock existing s₁) s =
        doc (rstripNl ((rstripNl existing).take start)) (stripSpace s) [] := by
  obtain ⟨start, rest, hstart, -, hend⟩ := open_start h
  have hle := (of_find hstart).1
  have hpos : 0 < begin_.length := List.length_pos_of_ne_nil begin_ne_nil
  refine ⟨start, by omega, fun s => ?_⟩
  rw [applyBlock_first h]
  generalize rstripNl existing = user at *
  have hdrop : (user ++ '\n' :: ([] ++ '\n' :: (block (stripSpace s₁) ++ ['\n']))).drop start =
      user.drop start ++ '\n' :: ([] ++ '\n' :: (block (stripSpace s₁) ++ ['\n'])) :=
    List.drop_append_of_le_length (by omega)
  have hmarkers : markers (user ++ '\n' :: ([] ++ '\n' :: (block (stripSpace s₁) ++ ['\n']))) =
      some (start, user.length + 2 + begin_.length + 1 + ((stripSpace s₁).length + 1)) := by
    unfold markers findFrom
    rw [find_append hstart]
    dsimp only
    rw [hdrop, find_sep nl_not_mem_end end_ne_nil hend,
      find_sep nl_not_mem_end end_ne_nil (by simp [end_ne_nil]), find_end_block hclean]
    simp only [Option.map_some, List.length_nil, List.length_drop, Option.some.injEq,
      Prod.mk.injEq, true_and]
    omega
  have hafter : (user ++ '\n' :: ([] ++ '\n' :: (block (stripSpace s₁) ++ ['\n']))).drop
      (user.length + 2 + begin_.length + 1 + ((stripSpace s₁).length + 1) + end_.length) =
      ['\n'] := by
    have hsplit : user ++ '\n' :: ([] ++ '\n' :: (block (stripSpace s₁) ++ ['\n'])) =
        (user ++ ['\n', '\n'] ++ block (stripSpace s₁)) ++ ['\n'] := by simp
    have hlen : user.length + 2 + begin_.length + 1 + ((stripSpace s₁).length + 1) + end_.length =
        (user ++ ['\n', '\n'] ++ block (stripSpace s₁)).length := by
      rw [List.length_append, List.length_append, length_block]
      simp only [List.length_cons, List.length_nil]
      omega
    rw [hsplit, hlen, List.drop_left]
  unfold applyBlock
  rw [hmarkers]
  dsimp only
  rw [hafter, List.take_append_of_le_length (by omega)]
  rfl

theorem mem_joinParts {c : Char} {parts : List Text} (h : c ∈ joinParts parts) :
    c = '\n' ∨ ∃ part ∈ parts, c ∈ part := by
  induction parts using joinParts.induct with
  | case1 => simp [joinParts] at h
  | case2 part => exact .inr ⟨part, by simp, h⟩
  | case3 part parts hne ih =>
    simp only [joinParts, List.mem_append, List.mem_cons] at h
    rcases h with h | h | h | h
    · exact .inr ⟨part, by simp, h⟩
    · exact .inl h
    · exact .inl h
    · rcases ih h with h | ⟨p, hp, h⟩
      · exact .inl h
      · exact .inr ⟨p, by simp [hp], h⟩

theorem mem_stripSpace {c : Char} {text : Text} (h : c ∈ stripSpace text) : c ∈ text := by
  have hback := List.mem_reverse.mp h
  have hrest := (List.dropWhile_suffix _).subset hback
  exact (List.dropWhile_suffix _).subset (List.mem_reverse.mp hrest)

theorem ret_not_mem_render {section_ : Text} (h : '\r' ∉ section_) : '\r' ∉ render section_ := by
  have hbegin : '\r' ∉ begin_ := by decide +kernel
  have hend : '\r' ∉ end_ := by decide +kernel
  simp only [render, List.mem_append, List.mem_cons, not_or]
  exact ⟨hbegin, by decide, fun hin => h (mem_stripSpace hin), by decide, hend⟩

/-- Nothing but the ends of lines that `read_text` makes gets into the text. -/
theorem ret_not_mem_applyBlock {existing section_ : Text} (he : '\r' ∉ existing)
    (hs : '\r' ∉ section_) : '\r' ∉ applyBlock existing section_ := by
  have hblock := ret_not_mem_render hs
  have hstrip {text : Text} (hsub : ∀ c ∈ text, c ∈ existing) : '\r' ∉ rstripNl text :=
    fun hin => he (hsub _ ((rstripNl_isPrefix text).subset hin))
  unfold applyBlock
  dsimp only
  split
  · split_ifs
    · simp [hblock]
    · simp [hblock, hstrip fun _ hc => hc]
  · rename_i start stop _
    have hhead := hstrip fun c (hc : c ∈ existing.take start) => List.mem_of_mem_take hc
    have htail := hstrip fun c (hc : c ∈ lstripNl (existing.drop (stop + end_.length))) =>
      List.mem_of_mem_drop ((List.dropWhile_suffix _).subset hc)
    rw [List.mem_append, not_or]
    refine ⟨fun hin => ?_, by simp⟩
    rcases mem_joinParts hin with h | ⟨part, hpart, h⟩
    · simp at h
    · have hmem := (List.mem_filter.mp hpart).1
      simp only [List.mem_cons, List.not_mem_nil, or_false] at hmem
      rcases hmem with rfl | rfl | rfl
      · exact hhead h
      · exact hblock h
      · exact htail h

/-- `main` leaves a file that reads as what `apply_block` makes of it. -/
theorem main_eq (target : Option Text) (section_ : Text) :
    (main target section_).map readText =
      some (applyBlock (reads target) (readText section_)) := by
  have hfree : '\r' ∉ reads target := by
    cases target with
    | none => simp [reads]
    | some text => exact readText_free text
  unfold main
  dsimp only
  split_ifs with hdiffers
  · rw [Option.map_some,
      readText_eq_self (ret_not_mem_applyBlock hfree (readText_free section_))]
  · have hsame := not_not.mp hdiffers
    cases target with
    | none =>
      exfalso
      have hclosed : ¬LeftOpen [] := fun h => begin_ne_nil (List.infix_nil.mp h.1)
      obtain ⟨head, tail, -, hdoc⟩ := applyBlock_closed hclosed
      have hnil : reads none = [] := rfl
      rw [hnil, hdoc, doc_eq] at hsame
      simp [block_ne_nil] at hsame
    | some text => exact congrArg some hsame.symm

theorem reads_main (target : Option Text) (section_ : Text) :
    reads (main target section_) = applyBlock (reads target) (readText section_) := by
  rw [reads, main_eq, Option.getD_some]

theorem foldl_main {existing : Text} {head tail : Text} (hout : Outside head tail)
    (hdoc : ∀ s, applyBlock existing s = doc head (stripSpace s) tail) (ss : List Text) (s : Text)
    (hclean : ∀ s ∈ ss, Clean s) (target : Option Text) (htarget : reads target = existing) :
    ((ss ++ [s]).foldl main target).map readText =
      some (doc head (stripSpace (readText s)) tail) := by
  induction ss generalizing target existing with
  | nil =>
    rw [List.nil_append, List.foldl_cons, List.foldl_nil, main_eq, htarget, hdoc]
  | cons s₁ ss ih =>
    rw [List.cons_append, List.foldl_cons]
    refine ih (fun s => applyBlock_doc hout (hclean s₁ (by simp)) s)
      (fun s hs => hclean s (by simp [hs])) _ ?_
    rw [reads_main, htarget, hdoc]

/-- However often the script ran, and with whatever sections, the file reads as what the last
run makes of the first one: exactly where the first beginning of a block in it has an end. -/
theorem last_wins {target : Option Text} :
    (∀ (ss : List Text) (s : Text), (∀ s ∈ ss, Clean s) →
      ((ss ++ [s]).foldl main target).map readText = (main target s).map readText) ↔
      ¬LeftOpen (reads target) := by
  constructor
  · intro h hopen
    have hnil : stripSpace (readText []) = [] := by simp [readText, stripSpace]
    have hclean : Clean [] := by
      rw [Clean, hnil]
      exact fun hin => end_ne_nil (List.infix_nil.mp hin)
    have htwice := h [[]] [] (by simpa using hclean)
    rw [List.singleton_append, List.foldl_cons, List.foldl_cons, List.foldl_nil, main_eq,
      reads_main, main_eq] at htwice
    have hsame := Option.some.inj htwice
    obtain ⟨start, hlt, hopened⟩ := applyBlock_open hopen hclean
    rw [hopened, applyBlock_first hopen, doc_eq] at hsame
    -- the second run drops at least the beginning that was left open
    have hlen := congrArg List.length hsame
    have hhead : (lead (rstripNl ((rstripNl (reads target)).take start))).length ≤ start + 2 := by
      have hprefix := (rstripNl_isPrefix ((rstripNl (reads target)).take start)).length_le
      rw [List.length_take] at hprefix
      unfold lead
      split_ifs
      · simp
      · simp
        omega
    simp [trail] at hlen
    omega
  · intro hclosed ss s hclean
    obtain ⟨head, tail, hout, hdoc⟩ := applyBlock_closed hclosed
    rw [foldl_main hout hdoc ss s hclean target rfl, main_eq, hdoc]

end PurdueAF.ManagedBlock

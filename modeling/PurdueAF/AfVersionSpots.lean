import PurdueAF.AfVersion

/-!
# The six spots

The five substitutions in values.yaml are made one after the other in one text. Their keys exclude
each other and what they put in is no key, so none sees what another one has written.
-/
namespace PurdueAF.AfVersion
open PatternScan Py

/-- With what a key ends. -/
def Spot.word : Spot → String
  | name => "name: "
  | tag => "tag: "
  | label => "docker_image_tag: "
  | display => "display_name: "
  | image => "image: "

/-- The characters of those words. -/
def wordChars : Text := " :_acdegiklmnoprsty".toList

theorem mem_wordChars {spot : Spot} {d : Char} (h : d ∈ spot.word.toList) : d ∈ wordChars := by
  have hall : spot.word.toList.all (fun c => wordChars.contains c) = true := by
    cases spot <;> decide
  exact List.contains_iff_mem.mp (List.all_eq_true.mp hall d h)

theorem suffix_of_key {spot : Spot} {prev : Option Char} {a : Text}
    (h : keyAt spot.slot.key prev a = true) : spot.word.toList <:+ a := by
  cases spot with
  | name => exact suffix_of_keyAt [.lineStart, .many isSpace] h
  | tag => exact suffix_of_keyAt [.lineStart, .many isSpace] h
  | label => exact suffix_of_keyAt [] h
  | display => exact suffix_of_keyAt [] h
  | image => exact suffix_of_keyAt [] h

theorem key_avoids {d : Char} (hspace : isSpace d = false) (hd : d ∉ wordChars) (spot : Spot) :
    ∀ it ∈ spot.slot.key, it.avoids d := by
  have hword (spot : Spot) : d ∉ spot.word.toList := fun hmem => hd (mem_wordChars hmem)
  have hline : ∀ text : String, d ∉ text.toList →
      ∀ it ∈ Item.lineStart :: .many isSpace :: lit text, it.avoids d := by
    intro text htext
    rw [List.forall_mem_cons, List.forall_mem_cons]
    exact ⟨trivial, hspace, lit_avoids htext⟩
  cases spot with
  | name => exact hline _ (hword .name)
  | tag => exact hline _ (hword .tag)
  | label => exact lit_avoids (hword .label)
  | display => exact lit_avoids (hword .display)
  | image => exact lit_avoids (hword .image)

/-- At the start of a line there is nothing but blanks before the word. -/
theorem keyAt_line {text : String} {prev : Option Char} {a : Text} {c : Char}
    (hsuffix : c :: text.toList <:+ a) (hc : isSpace c = false) :
    keyAt (.lineStart :: .many isSpace :: lit text) prev a = false := by
  obtain ⟨x, rfl⟩ := hsuffix
  rw [Bool.eq_false_iff]
  intro h
  rw [blank_of_keyAt (by decide) h] at hc
  cases hc

theorem key_exclusive (spot spot' : Spot) (prev : Option Char) (a : Text)
    (h : keyAt spot.slot.key prev a = true) (h' : keyAt spot'.slot.key prev a = true) :
    spot = spot' := by
  -- two of the words end with another one, behind an underscore
  have hwords : ∀ s s' : Spot, s.word.toList <:+ s'.word.toList →
      s = s' ∨ (s = .name ∧ s' = .display) ∨ (s = .tag ∧ s' = .label) := by
    intro s s'
    cases s <;> cases s' <;> decide
  have hsuffix : ∀ {s s' : Spot}, s.word.toList <:+ s'.word.toList →
      keyAt s.slot.key prev a = true → keyAt s'.slot.key prev a = true → s = s' := by
    intro s s' hss hs hs'
    have hword := suffix_of_key hs'
    rcases hwords s s' hss with rfl | ⟨rfl, rfl⟩ | ⟨rfl, rfl⟩
    · rfl
    · have hname : '_' :: "name: ".toList <:+ a :=
        (show '_' :: "name: ".toList <:+ Spot.display.word.toList by decide).trans hword
      rw [Spot.slot, keyAt_line hname (by decide)] at hs
      cases hs
    · have htag : '_' :: "tag: ".toList <:+ a :=
        (show '_' :: "tag: ".toList <:+ Spot.label.word.toList by decide).trans hword
      rw [Spot.slot, keyAt_line htag (by decide)] at hs
      cases hs
  rcases List.suffix_or_suffix_of_suffix (suffix_of_key h) (suffix_of_key h') with hss | hss
  · exact hsuffix hss h h'
  · exact (hsuffix hss h' h).symm

theorem key_nil (spot : Spot) (prev : Option Char) : accepts spot.slot.key prev [] = false := by
  rw [Bool.eq_false_iff]
  intro h
  have hnil := List.suffix_nil.mp (suffix_of_key h)
  revert hnil
  cases spot <;> decide

/-- `[^\s"]` -/
abbrev inWord (c : Char) : Bool := !isSpace c && c ≠ '"'

theorem inWord_of_mem_registry {c : Char} (h : c ∈ defaultRegistry.text) : inWord c = true := by
  have hall : defaultRegistry.text.all inWord = true := by
    dsimp only [defaultRegistry]
    rw [String.toList_ofList]
    decide
  exact List.all_eq_true.mp hall c h

theorem ne_quote_of_inWord {c : Char} (h : inWord c = true) : c ≠ '"' := by
  rw [inWord, Bool.and_eq_true] at h
  exact of_decide_eq_true h.2

/-- The registry without its last part. -/
def host : Text := "geddes2-registry.rcac.purdue.edu/ghcr-proxy-cache/purdueaf".toList

theorem text_defaultRegistry : defaultRegistry.text = host ++ "/purdue-af".toList := by
  have htext : defaultRegistry.text = _ := String.toList_ofList
  have hhost : host = _ := String.toList_ofList
  have hlast : "/purdue-af".toList = _ := String.toList_ofList
  rw [htext, hhost, hlast]
  rfl

theorem inWord_of_mem_host {c : Char} (h : c ∈ host) : inWord c = true := by
  apply inWord_of_mem_registry
  rw [text_defaultRegistry]
  exact List.mem_append_left _ h

/-- The image of a version. -/
theorem image_defaultRegistry (v : Text) :
    defaultRegistry.text ++ ':' :: v = host ++ ("/purdue-af:".toList ++ v) := by
  have hcolon : "/purdue-af:".toList = "/purdue-af".toList ++ [':'] := by decide
  rw [text_defaultRegistry, hcolon]
  simp only [List.append_assoc, List.singleton_append]

theorem version_avoids {d : Char} (hdigit : digit d = false) (hdot : d ≠ '.') :
    ∀ it ∈ version, it.avoids d := by
  have hnumber : ∀ it ∈ number, it.avoids d := by simp [number, Item.avoids, hdigit]
  have hlit : ∀ it ∈ lit ".", it.avoids d := lit_avoids (by simp [hdot])
  simp only [version, List.forall_mem_append]
  exact ⟨⟨⟨⟨hnumber, hlit⟩, hnumber⟩, hlit⟩, hnumber⟩

theorem notMem_version {prev : Option Char} {v : Text} {d : Char} (h : accepts version prev v = true)
    (hdigit : digit d = false) (hdot : d ≠ '.') : d ∉ v :=
  notMem_of_accepts (version_avoids hdigit hdot) h

theorem notMem_syncNew {v : Text} {d : Char} (hv : d ∉ v) (hcolon : d ≠ ':')
    (hword : inWord d = false) : d ∉ syncNew v defaultRegistry := by
  rw [syncNew, List.mem_append, List.mem_cons]
  rintro (hmem | heq | hmem)
  · rw [inWord_of_mem_registry hmem] at hword
    cases hword
  · exact hcolon heq
  · exact hv hmem

theorem notMem_new {v : Text} {d : Char} (hv : d ∉ v) (hcolon : d ≠ ':')
    (hword : inWord d = false) (spot : Spot) : d ∉ spot.new v defaultRegistry := by
  cases spot with
  | name =>
    intro hmem
    rw [inWord_of_mem_registry hmem] at hword
    cases hword
  | tag => exact hv
  | label => exact hv
  | display => exact hv
  | image => exact notMem_syncNew hv hcolon hword

theorem version_getLast {prev : Option Char} {v : Text} (h : accepts version prev v = true) :
    ∃ u d, v = u ++ [d] ∧ digit d = true := by
  obtain ⟨a, b, c, -, -, hc, rfl⟩ := accepts_version.mp h
  obtain ⟨c, d, rfl⟩ := (List.eq_nil_or_concat c).resolve_left hc.1
  refine ⟨a ++ '.' :: (b ++ '.' :: c), d, ?_, hc.2 d (by simp)⟩
  simp [join_cons_cons, join_singleton]

theorem accepts_version_prev {prev prev' : Option Char} {v : Text}
    (h : accepts version prev v = true) : accepts version prev' v = true :=
  accepts_version.mpr (accepts_version.mp h)

/-- The character that what is put in ends with is no part of a key. -/
def Stops (d : Char) : Prop := digit d = true ∨ d = 'f'

theorem key_avoids_stop {d : Char} (h : Stops d) (spot : Spot) :
    ∀ it ∈ spot.slot.key, it.avoids d := by
  rcases h with hdigit | rfl
  · refine key_avoids (isSpace_of_digit hdigit) (fun hd => ?_) spot
    have hnone : wordChars.any digit = false := by decide
    exact List.any_eq_false.mp hnone d hd hdigit
  · exact key_avoids (by decide) (by decide) spot

section Values
variable {v : Text} (hv : accepts version none v = true)
include hv

theorem accepts_image (prev : Option Char) : accepts Spot.image.slot.middle prev
    (defaultRegistry.text ++ ':' :: v) = true := by
  rw [image_defaultRegistry, Spot.slot, accepts_many]
  refine ⟨host, _, rfl, ?_, accepts_append.mpr ⟨_, v, rfl, accepts_lit.mpr rfl, ?_⟩⟩
  · exact fun c hc => decide_eq_true (ne_quote_of_inWord (inWord_of_mem_host hc))
  · exact accepts_version_prev hv

omit hv in
theorem accepts_name (prev : Option Char) :
    accepts Spot.name.slot.middle prev defaultRegistry.text = true := by
  rw [text_defaultRegistry, Spot.slot, accepts_many]
  refine ⟨host, _, rfl, fun c hc => ?_, accepts_lit.mpr rfl⟩
  exact decide_eq_true (ne_quote_of_inWord (inWord_of_mem_host hc))

/-- What is put into a closed spot is found there again. -/
theorem accepts_new {spot : Spot} (hspot : spot ≠ .display) (prev : Option Char) :
    accepts spot.slot.middle prev (spot.new v defaultRegistry) = true := by
  cases spot with
  | name => exact accepts_name prev
  | tag => exact accepts_version_prev hv
  | label => exact accepts_version_prev hv
  | display => exact absurd rfl hspot
  | image => exact accepts_image hv prev

theorem split_again (spot : Spot) (b p old r : Text) (h : spot.slot.split '"' b = some (p, old, r)) :
    spot.slot.split '"' (p ++ spot.new v defaultRegistry ++ r) =
      some (p, spot.new v defaultRegistry, r) := by
  have hclosed : ∀ {s : Slot}, s.closed = true → s.lead = [] → ∀ {w : Text},
      accepts s.middle (some '"') w = true → s.split '"' b = some (p, old, r) →
        s.split '"' (p ++ w ++ r) = some (p, w, r) := by
    intro s hs hlead w hw hsplit
    obtain ⟨rfl, -, rfl, -⟩ := (split_closed hs hlead).mp hsplit
    exact (split_closed hs hlead).mpr ⟨rfl, by simp, rfl, by simpa using hw⟩
  cases spot with
  | name => exact hclosed rfl rfl (accepts_new hv (by decide) _) h
  | tag => exact hclosed rfl rfl (accepts_new hv (by decide) _) h
  | label => exact hclosed rfl rfl (accepts_new hv (by decide) _) h
  | image => exact hclosed rfl rfl (accepts_new hv (by decide) _) h
  | display =>
    obtain ⟨b', rfl, rfl, hhead⟩ := (split_open _ rfl rfl).mp h
    obtain ⟨-, -, hr⟩ := head?_version.mp hhead
    refine (split_open _ rfl rfl).mpr ⟨v ++ r, by rw [List.append_assoc]; rfl, rfl, ?_⟩
    exact head?_version.mpr ⟨rfl, accepts_version_prev hv, hr⟩

omit hv in
theorem stop_of_split (spot : Spot) (b p old r : Text)
    (h : spot.slot.split '"' b = some (p, old, r)) : ∃ u d, old = u ++ [d] ∧ Stops d := by
  have hversion : ∀ {prev : Option Char} {w : Text}, accepts version prev w = true →
      ∃ u d, w = u ++ [d] ∧ Stops d := by
    intro prev w hw
    obtain ⟨u, d, rfl, hd⟩ := version_getLast hw
    exact ⟨u, d, rfl, .inl hd⟩
  cases spot with
  | name =>
    obtain ⟨-, rfl, -, hacc⟩ := (split_closed rfl rfl).mp h
    obtain ⟨u, w, rfl, -, hw⟩ := accepts_many.mp hacc
    obtain rfl := accepts_lit.mp hw
    exact ⟨u ++ "/purdue-a".toList, 'f', by rw [List.append_assoc]; rfl, .inr rfl⟩
  | tag =>
    obtain ⟨-, rfl, -, hacc⟩ := (split_closed rfl rfl).mp h
    exact hversion hacc
  | label =>
    obtain ⟨-, rfl, -, hacc⟩ := (split_closed rfl rfl).mp h
    exact hversion hacc
  | display =>
    obtain ⟨b', rfl, rfl, hhead⟩ := (split_open _ rfl rfl).mp h
    exact hversion (head?_version.mp hhead).2.1
  | image =>
    obtain ⟨-, rfl, -, hacc⟩ := (split_closed rfl rfl).mp h
    obtain ⟨u, w, rfl, -, hw⟩ := accepts_many.mp hacc
    obtain ⟨x, y, rfl, -, hy⟩ := accepts_append.mp hw
    obtain ⟨z, d, rfl, hd⟩ := hversion hy
    exact ⟨u ++ (x ++ z), d, by simp, hd⟩

omit hv in
theorem inner_avoids (spot : Spot) : ∀ it ∈ spot.slot.lead ++ spot.slot.middle, it.avoids '"' := by
  have hversion : ∀ it ∈ version, it.avoids '"' := version_avoids (by decide) (by decide)
  cases spot with
  | name =>
    refine List.forall_mem_cons.mpr ⟨?_, lit_avoids (by decide)⟩
    exact decide_eq_false (by simp)
  | tag => exact hversion
  | label => exact hversion
  | display => exact List.forall_mem_append.mpr ⟨lit_avoids (by decide), hversion⟩
  | image =>
    refine List.forall_mem_cons.mpr ⟨decide_eq_false (by simp), ?_⟩
    exact List.forall_mem_append.mpr ⟨lit_avoids (by decide), hversion⟩

theorem new_stop (spot : Spot) : ∃ u d, spot.new v defaultRegistry = u ++ [d] ∧ Stops d := by
  obtain ⟨u, d, hu, hd⟩ := version_getLast hv
  cases spot with
  | name =>
    have hlast : "/purdue-af".toList = "/purdue-a".toList ++ ['f'] := by decide
    refine ⟨host ++ "/purdue-a".toList, 'f', ?_, .inr rfl⟩
    rw [List.append_assoc, ← hlast, ← text_defaultRegistry]
    rfl
  | tag => exact ⟨u, d, hu, .inl hd⟩
  | label => exact ⟨u, d, hu, .inl hd⟩
  | display => exact ⟨u, d, hu, .inl hd⟩
  | image => exact ⟨defaultRegistry.text ++ ':' :: u, d, by simp [Spot.new, hu], .inl hd⟩

/-- No substitution touches what another one finds. -/
theorem apart_spots : Apart '"' Spot.slot (Spot.new v defaultRegistry) := by
  have hnew : ∀ spot : Spot, '"' ∉ spot.new v defaultRegistry :=
    notMem_new (notMem_version hv (by decide) (by decide)) (by decide) (by decide)
  refine Apart.of_stop Stops (key_avoids (by decide) (by decide)) inner_avoids key_nil key_exclusive
    (split_again hv) hnew ?_ (fun d hd => key_avoids_stop hd) stop_of_split (new_stop hv)
  rintro (hdigit | hf)
  · revert hdigit
    decide
  · revert hf
    decide

end Values

/-- What an image ends with. -/
abbrev tagged : List Item := lit "/purdue-af:" ++ version

theorem inWord_of_version {prev : Option Char} {v : Text} (h : accepts version prev v = true) :
    ∀ c ∈ v, inWord c = true := by
  obtain ⟨x, y, z, hx, hy, hz, rfl⟩ := accepts_version.mp h
  have hdigit : ∀ {c : Char}, digit c = true → inWord c = true := by
    intro c hc
    have hquote := ne_of_digit hc (show digit '"' = false by decide)
    simp [inWord, isSpace_of_digit hc, hquote]
  have hdot : inWord '.' = true := by decide
  intro c hc
  simp only [join_cons_cons, join_singleton, List.mem_append, List.mem_cons] at hc
  rcases hc with hc | rfl | hc | rfl | hc
  · exact hdigit (hx.2 c hc)
  · exact hdot
  · exact hdigit (hy.2 c hc)
  · exact hdot
  · exact hdigit (hz.2 c hc)

theorem head?_tagged {prev : Option Char} {t u r : Text} :
    (runs tagged prev t).head? = some (u, r) ↔ ∃ w, t = "/purdue-af:".toList ++ (w ++ r) ∧
      u = "/purdue-af:".toList ++ w ∧ accepts version none w = true ∧
        ∀ c ∈ r.head?, digit c = false := by
  rw [head?_lit]
  constructor
  · rintro ⟨rest, w, rfl, rfl, h⟩
    obtain ⟨rfl, hw, hr⟩ := head?_version.mp h
    exact ⟨w, rfl, rfl, accepts_version_prev hw, hr⟩
  · rintro ⟨w, rfl, rfl, hw, hr⟩
    exact ⟨w ++ r, w, rfl, rfl, head?_version.mpr ⟨rfl, accepts_version_prev hw, hr⟩⟩

/-- A slash behind a text that has none. -/
theorem append_slash {m r s y : Text} (hm : '/' ∉ m) (h : m ++ r = s ++ '/' :: y) :
    ∃ x, s = m ++ x ∧ r = x ++ '/' :: y := by
  rcases List.append_eq_append_iff.mp h with ⟨x, rfl, rfl⟩ | ⟨x, rfl, hx⟩
  · exact ⟨x, rfl, rfl⟩
  · cases x with
    | nil => exact ⟨[], by simp, by simpa using hx.symm⟩
    | cons c x =>
      obtain ⟨rfl, -⟩ := List.cons.inj hx
      exact absurd (by simp) hm

theorem syncSplit_iff {b p old r : Text} : syncSlot.split ' ' b = some (p, old, r) ↔
    p = [] ∧ (star inWord (runs tagged) (some ' ') b).head? = some (old, r) := by
  rw [split_open "" rfl rfl]
  constructor
  · rintro ⟨b', rfl, rfl, h⟩
    exact ⟨rfl, h⟩
  · rintro ⟨rfl, h⟩
    exact ⟨b, rfl, rfl, h⟩

section Sync
variable {v : Text} (hv : accepts version none v = true)
include hv

/-- Behind the last image of a word, another version leaves it the last one. -/
theorem syncSplit_again (b p old r : Text) (h : syncSlot.split ' ' b = some (p, old, r)) :
    syncSlot.split ' ' (p ++ syncNew v defaultRegistry ++ r) =
      some (p, syncNew v defaultRegistry, r) := by
  obtain ⟨rfl, hhead⟩ := syncSplit_iff.mp h
  obtain ⟨s, t, u, rfl, hs, rfl, ht, hlast⟩ := head?_star.mp hhead
  obtain ⟨w, rfl, rfl, hw, hr⟩ := head?_tagged.mp ht
  refine syncSplit_iff.mpr ⟨rfl, ?_⟩
  rw [syncNew, image_defaultRegistry, head?_star]
  have hhost : ∀ c ∈ host, inWord c = true := fun c hc => inWord_of_mem_host hc
  refine ⟨host, "/purdue-af:".toList ++ (v ++ r), "/purdue-af:".toList ++ v, by simp, hhost, rfl,
    head?_tagged.mpr ⟨v, rfl, rfl, hv, hr⟩, ?_⟩
  intro s' t' htext hs' hlen
  by_contra hne
  obtain ⟨⟨x, y⟩, hmem⟩ := List.exists_mem_of_ne_nil _ hne
  obtain ⟨rfl, hx⟩ := mem_runs.mp hmem
  obtain ⟨key, z, rfl, hkey, hz⟩ := accepts_append.mp hx
  obtain rfl := accepts_lit.mp hkey
  have hslash : "/purdue-af:".toList = '/' :: "purdue-af:".toList := by decide
  have hfree : '/' ∉ "purdue-af:".toList ++ v := by
    rw [List.mem_append, not_or]
    exact ⟨by decide, notMem_version hv (by decide) (by decide)⟩
  -- another image behind this one would have been behind the old one
  obtain ⟨x, hword, hrest⟩ : ∃ x, (∀ c ∈ x, inWord c = true) ∧
      r = x ++ ("/purdue-af:".toList ++ z ++ y) := by
    rw [List.nil_append, List.append_assoc] at htext
    rcases List.append_eq_append_iff.mp htext with ⟨s'', rfl, hs''⟩ | ⟨s'', hlong, -⟩
    · cases s'' with
      | nil => simp at hlen
      | cons c s'' =>
        rw [hslash] at hs''
        obtain ⟨rfl, htail⟩ := List.cons.inj hs''
        obtain ⟨x, rfl, hr⟩ := append_slash hfree htail
        exact ⟨x, fun c hc => hs' c (by simp [hc]), by rw [hr, hslash]; rfl⟩
    · rw [hlong, List.length_append] at hlen
      omega
  have hnone : runs tagged (behind (some ' ') (s ++ ("/purdue-af:".toList ++ w ++ x)))
      ("/purdue-af:".toList ++ z ++ y) = [] := by
    apply hlast
    · rw [hrest]
      simp only [List.append_assoc]
    · simp only [List.forall_mem_append]
      exact ⟨hs, ⟨List.all_eq_true.mp (by decide), inWord_of_version hw⟩, hword⟩
    · have hpos : 0 < "/purdue-af:".toList.length := by decide
      simp only [List.length_append]
      omega
  have hagain : accepts tagged (behind (some ' ') (s ++ ("/purdue-af:".toList ++ w ++ x)))
      ("/purdue-af:".toList ++ z) = true :=
    accepts_append.mpr ⟨_, z, rfl, accepts_lit.mpr rfl, accepts_version_prev hz⟩
  have hmem' := mem_runs.mpr ⟨show _ = _ ++ y from rfl, hagain⟩
  rw [hnone] at hmem'
  cases hmem'

theorem apart_sync : Apart ' ' (fun _ : Unit => syncSlot) fun _ => syncNew v defaultRegistry := by
  have hkey : ∀ {d : Char}, d ∉ "image:".toList → Unit → ∀ it ∈ syncSlot.key, it.avoids d :=
    fun hd _ => lit_avoids hd
  have hnil : ∀ (_ : Unit) (prev : Option Char), accepts syncSlot.key prev [] = false := by
    intro _ prev
    rw [Bool.eq_false_iff, Ne, Slot.key, syncSlot, accepts_lit]
    decide
  have hinner : Unit → ∀ it ∈ syncSlot.lead ++ syncSlot.middle, it.avoids ' ' := by
    intro _
    refine List.forall_mem_cons.mpr ⟨show inWord ' ' = false by decide, ?_⟩
    exact List.forall_mem_append.mpr
      ⟨lit_avoids (by decide), version_avoids (by decide) (by decide)⟩
  have hfree : ' ' ∉ syncNew v defaultRegistry :=
    notMem_syncNew (notMem_version hv (by decide) (by decide)) (by decide) (by decide)
  refine Apart.of_stop (fun d => digit d = true) (hkey (by decide)) hinner hnil
    (fun _ _ _ _ _ _ => rfl) (fun _ => syncSplit_again hv) (fun _ => hfree) (by decide) ?_ ?_ ?_
  · intro d hd
    refine hkey fun hmem => ?_
    have hnone : "image:".toList.any digit = false := by decide
    exact List.any_eq_false.mp hnone d hmem hd
  · intro _ b p old r h
    obtain ⟨-, hhead⟩ := syncSplit_iff.mp h
    obtain ⟨s, t, u, -, -, rfl, ht, -⟩ := head?_star.mp hhead
    obtain ⟨w, -, rfl, hw, -⟩ := head?_tagged.mp ht
    obtain ⟨x, d, rfl, hd⟩ := version_getLast hw
    exact ⟨s ++ ("/purdue-af:".toList ++ x), d, by simp, hd⟩
  · intro _
    obtain ⟨u, d, hu, hd⟩ := version_getLast hv
    exact ⟨defaultRegistry.text ++ ':' :: u, d, by simp [syncNew, hu], hd⟩

end Sync

end PurdueAF.AfVersion

import PurdueAF.AfVersionSpots

/-!
# A release

A release is complete or leaves the two files as they were.
-/
namespace PurdueAF.AfVersion
open PatternScan Py

/-- Each character after the substitutions was there before or has been put in. -/
theorem mem_of_replaces {ι : Type} [DecidableEq ι] {pattern : ι → Pattern} {new : ι → Text}
    {text text' : Text} {c : Char} (h : Replaces pattern new text text') (hc : c ∈ text') :
    c ∈ text ∨ ∃ k, c ∈ new k := by
  obtain ⟨pieces, rfl, rfl, -⟩ := h
  obtain ⟨piece, hpiece, hc⟩ := List.mem_flatMap.mp hc
  cases piece with
  | kept u => exact .inl (List.mem_flatMap.mpr ⟨_, hpiece, hc⟩)
  | spot k old => exact .inr ⟨k, hc⟩

section Texts
variable {text text' sync sync' v : Text}

theorem accepts_of_currentVersion {cur : Text} (h : currentVersion text = .ok cur) :
    accepts version none cur = true := by
  rw [currentVersion] at h
  cases hhead : (Spot.label.pattern.found text).head? with
  | none =>
    rw [hhead] at h
    cases h
  | some found =>
    rw [hhead] at h
    obtain rfl := Except.ok.inj h
    obtain ⟨prev, hacc⟩ := accepts_of_found (List.mem_of_head? hhead)
    exact accepts_version_prev hacc

theorem accepts_of_newVersion {repr : Text → String} {cur new : Text} {wanted : Wanted}
    (hcur : accepts version none cur = true) (h : newVersion repr cur wanted = .ok new) :
    accepts version none new = true := by
  cases wanted with
  | bump kind => exact (bumpVersion_lt hcur h).1
  | set explicit =>
    cases explicit with
    | nil => exact absurd h bumpVersion_none
    | cons c explicit =>
      rw [newVersion] at h
      · split_ifs at h with hacc
        obtain rfl := Except.ok.inj h
        exact hacc
      · simp

/-- Each of the spots is there once. -/
def Once (text : Text) : Prop := ∀ spot : Spot, (spot.pattern.found text).length = 1

def OnceSync (sync : Text) : Prop := (syncPattern.found sync).length = 1

theorem mem_spots (spot : Spot) : spot ∈ spots := by
  cases spot <;> decide

theorem apply_iff (hv : accepts version none v = true) :
    (∃ text', apply text v defaultRegistry = .ok text') ↔ Once text :=
  once_iff (apart_spots hv) Spot.refuse mem_spots

theorem found_of_apply (hv : accepts version none v = true)
    (h : apply text v defaultRegistry = .ok text') :
    (∀ spot : Spot, spot.pattern.found text' = [spot.new v defaultRegistry]) ∧
      Replaces Spot.pattern (Spot.new v defaultRegistry) text text' ∧
      apply text' v defaultRegistry = .ok text' :=
  found_of_once (apart_spots hv) Spot.refuse mem_spots h

theorem applySync_eq : applySync sync v defaultRegistry =
    [()].foldlM (fun text _ => syncPattern.once (syncNew v defaultRegistry) refuseSync text) sync := by
  rw [List.foldlM_cons]
  cases h : applySync sync v defaultRegistry with
  | error stop =>
    rw [applySync] at h
    rw [h]
    rfl
  | ok sync' =>
    rw [applySync] at h
    rw [h]
    rfl

theorem applySync_iff (hv : accepts version none v = true) :
    (∃ sync', applySync sync v defaultRegistry = .ok sync') ↔ OnceSync sync := by
  simp only [applySync_eq]
  refine (once_iff (apart_sync hv) (fun _ => refuseSync) fun _ => by simp).trans ?_
  exact ⟨fun h => h (), fun h _ => h⟩

theorem found_of_applySync (hv : accepts version none v = true)
    (h : applySync sync v defaultRegistry = .ok sync') :
    syncPattern.found sync' = [syncNew v defaultRegistry] ∧
      Replaces (fun _ : Unit => syncPattern) (fun _ => syncNew v defaultRegistry) sync sync' ∧
      applySync sync' v defaultRegistry = .ok sync' := by
  rw [applySync_eq] at h ⊢
  obtain ⟨hfound, hframe, hagain⟩ :=
    found_of_once (apart_sync hv) (fun _ => refuseSync) (fun _ => by simp) h
  exact ⟨hfound (), hframe, hagain⟩

end Texts

section Steps
variable {ε σ α β : Type}

theorem run_get_bind (f : σ → ExceptT ε (StateM σ) β) (s : σ) : (get >>= f).run s = (f s).run s :=
  rfl

theorem run_lift_bind (x : Except ε α) (f : α → ExceptT ε (StateM σ) β) (s : σ) :
    ((liftM x : ExceptT ε (StateM σ) α) >>= f).run s =
      match x with
      | .ok a => (f a).run s
      | .error e => (.error e, s) := by
  cases x <;> rfl

end Steps

section Runs
variable (repr : Text → String)

/-- A run with the registry that is the default: what it prints, or how it ends, and the files
then. -/
def run (request : Request) (dryRun : Bool) (files : Files) : Except Stop Text × Files :=
  (main repr defaultRegistry request dryRun).run files

/-- What a release prints and would write. -/
def prepare (wanted : Wanted) (files : Files) : Except Stop (Text × Files) := do
  let cur ← currentVersion (readText files.values)
  let new ← newVersion repr cur wanted
  let values ← apply (readText files.values) new defaultRegistry
  let sync ← applySync (readText files.sync) new defaultRegistry
  return (new, ⟨values, sync⟩)

/-- Both files are written, behind all that can stop the program, or neither is. -/
theorem run_release (wanted : Wanted) (dryRun : Bool) (files : Files) :
    run repr (.release wanted) dryRun files =
      match prepare repr wanted files with
      | .ok (new, files') => (.ok new, if dryRun then files else files')
      | .error stop => (.error stop, files) := by
  rw [run, main, run_get_bind, run_lift_bind, prepare]
  cases currentVersion (readText files.values) with
  | error stop => rfl
  | ok cur =>
    dsimp only
    rw [run_lift_bind, ok_bind]
    cases newVersion repr cur wanted with
    | error stop => rfl
    | ok new =>
      dsimp only
      rw [run_lift_bind, ok_bind]
      cases apply (readText files.values) new defaultRegistry with
      | error stop => rfl
      | ok values =>
        dsimp only
        rw [run_get_bind, run_lift_bind, ok_bind]
        cases applySync (readText files.sync) new defaultRegistry with
        | error stop => rfl
        | ok sync => cases dryRun <;> rfl

/-- The six spots are there once and have the new version, and nothing else has changed. -/
structure Complete (new : Text) (files files' : Files) : Prop where
  version : accepts version none new = true
  once : Once (readText files.values)
  onceSync : OnceSync (readText files.sync)
  found : ∀ spot : Spot, spot.pattern.found files'.values = [spot.new new defaultRegistry]
  foundSync : syncPattern.found files'.sync = [syncNew new defaultRegistry]
  current : currentVersion files'.values = .ok new
  frame : Replaces Spot.pattern (Spot.new new defaultRegistry) (readText files.values) files'.values
  frameSync : Replaces (fun _ : Unit => syncPattern) (fun _ => syncNew new defaultRegistry)
    (readText files.sync) files'.sync
  again : ∀ repr dryRun, run repr (.release (.set new)) dryRun files' = (.ok new, files')

variable {repr} {wanted : Wanted} {new : Text} {files files' : Files}

theorem prepare_cases (h : prepare repr wanted files = .ok (new, files')) :
    ∃ cur, currentVersion (readText files.values) = .ok cur ∧ newVersion repr cur wanted = .ok new ∧
      apply (readText files.values) new defaultRegistry = .ok files'.values ∧
      applySync (readText files.sync) new defaultRegistry = .ok files'.sync := by
  obtain ⟨cur, hcur, h⟩ := except_bind_ok h
  obtain ⟨v, hnew, h⟩ := except_bind_ok h
  obtain ⟨values, hvalues, h⟩ := except_bind_ok h
  obtain ⟨sync, hsync, h⟩ := except_bind_ok h
  obtain ⟨rfl, rfl⟩ := Prod.mk.inj (Except.ok.inj h)
  exact ⟨cur, hcur, hnew, hvalues, hsync⟩

theorem newVersion_set {cur v : Text} (hv : accepts version none v = true) :
    newVersion repr cur (.set v) = .ok v := by
  obtain ⟨a, b, c, ha, -, -, rfl⟩ := accepts_version.mp hv
  obtain ⟨d, a, rfl⟩ := List.exists_cons_of_ne_nil ha.1
  have htext : join '.' [d :: a, b, c] = d :: (a ++ '.' :: join '.' [b, c]) := join_cons_cons _ _ _
  rw [htext] at hv ⊢
  rw [newVersion, if_pos hv]
  simp

/-- No end of a line but `\n` is put in. -/
theorem free_of_apply {text text' v : Text} (hv : accepts version none v = true) (htext : '\r' ∉ text)
    (h : apply text v defaultRegistry = .ok text') : '\r' ∉ text' := by
  have hnew : ∀ spot : Spot, '\r' ∉ spot.new v defaultRegistry :=
    notMem_new (notMem_version hv (by decide) (by decide)) (by decide) (by decide)
  intro hmem
  rcases mem_of_replaces (found_of_apply hv h).2.1 hmem with hmem | ⟨spot, hmem⟩
  · exact htext hmem
  · exact hnew spot hmem

theorem free_of_applySync {sync sync' v : Text} (hv : accepts version none v = true)
    (hsync : '\r' ∉ sync) (h : applySync sync v defaultRegistry = .ok sync') : '\r' ∉ sync' := by
  have hnew : '\r' ∉ syncNew v defaultRegistry :=
    notMem_syncNew (notMem_version hv (by decide) (by decide)) (by decide) (by decide)
  intro hmem
  rcases mem_of_replaces (found_of_applySync hv h).2.1 hmem with hmem | ⟨-, hmem⟩
  · exact hsync hmem
  · exact hnew hmem

theorem complete_of_prepare (h : prepare repr wanted files = .ok (new, files')) :
    Complete new files files' := by
  obtain ⟨cur, hcur, hnew, hvalues, hsync⟩ := prepare_cases h
  have hv := accepts_of_newVersion (accepts_of_currentVersion hcur) hnew
  obtain ⟨hfound, hframe, hagain⟩ := found_of_apply hv hvalues
  obtain ⟨hfoundSync, hframeSync, hagainSync⟩ := found_of_applySync hv hsync
  have hread : readText files'.values = files'.values :=
    readText_eq_self (free_of_apply hv (readText_free _) hvalues)
  have hreadSync : readText files'.sync = files'.sync :=
    readText_eq_self (free_of_applySync hv (readText_free _) hsync)
  have hcurrent : currentVersion files'.values = .ok new := by
    rw [currentVersion, hfound .label]
    rfl
  refine ⟨hv, (apply_iff hv).mp ⟨_, hvalues⟩, (applySync_iff hv).mp ⟨_, hsync⟩, hfound, hfoundSync,
    hcurrent, hframe, hframeSync, ?_⟩
  intro repr' dryRun
  have hprepare : prepare repr' (.set new) files' = .ok (new, files') := by
    rw [prepare, hread, hreadSync, hcurrent, ok_bind, newVersion_set hv, ok_bind, hagain, ok_bind,
      hagainSync]
    rfl
  rw [run_release, hprepare]
  cases dryRun <;> rfl

theorem prepare_of_run {dryRun : Bool}
    (h : (run repr (.release wanted) dryRun files).1 = .ok new) :
    ∃ files', prepare repr wanted files = .ok (new, files') ∧
      (run repr (.release wanted) dryRun files).2 = if dryRun then files else files' := by
  rw [run_release] at h ⊢
  cases hprepare : prepare repr wanted files with
  | error stop =>
    rw [hprepare] at h
    cases h
  | ok made =>
    rw [hprepare] at h
    obtain rfl : made.1 = new := Except.ok.inj h
    exact ⟨made.2, rfl, rfl⟩

end Runs

theorem length_numbers {prev : Option Char} {v : Text} (h : accepts version prev v = true) :
    (numbers v).length = 3 := by
  obtain ⟨a, b, c, ha, hb, hc, rfl⟩ := accepts_version.mp h
  rw [numbers_join (by simp) (by simp [ha, hb, hc])]
  rfl

/-- A run that prints a version has made a whole release of it, which a second one leaves as it is;
one that does not find each of the spots once, or stops for another reason, has written nothing. A
bump is to a greater version, and there is one where `int` and `str` take the numbers. -/
theorem release_complete (repr : Text → String) (files : Files) :
    (∀ wanted dryRun new, (run repr (.release wanted) dryRun files).1 = .ok new →
      (∀ v, wanted = .set v → new = v) ∧
      ∃ files', Complete new files files' ∧
        (run repr (.release wanted) dryRun files).2 = if dryRun then files else files') ∧
    (∀ wanted dryRun, ¬Once (readText files.values) ∨ ¬OnceSync (readText files.sync) →
      ∃ stop, run repr (.release wanted) dryRun files = (.error stop, files)) ∧
    (∀ request dryRun stop, (run repr request dryRun files).1 = .error stop →
      (run repr request dryRun files).2 = files) ∧
    ∀ cur, currentVersion (readText files.values) = .ok cur → ∀ kind,
      (∀ dryRun new, (run repr (.release (.bump kind)) dryRun files).1 = .ok new →
        bumpVersion cur (some kind) = .ok new) ∧
      (∀ new, bumpVersion cur (some kind) = .ok new →
        (numbers cur).length = 3 ∧ (numbers new).length = 3 ∧ numbers cur < numbers new) ∧
      ((∃ new, bumpVersion cur (some kind) = .ok new) ↔
        ∀ w ∈ cur.splitOn '.', w.length ≤ maxDigits ∧ value w + 1 < 10 ^ maxDigits) := by
  have hstopped : ∀ {wanted dryRun}, (∀ made, prepare repr wanted files ≠ .ok made) →
      ∃ stop, run repr (.release wanted) dryRun files = (.error stop, files) := by
    intro wanted dryRun h
    rw [run_release]
    cases hprepare : prepare repr wanted files with
    | error stop => exact ⟨stop, rfl⟩
    | ok made => exact absurd hprepare (h made)
  refine ⟨?_, ?_, ?_, ?_⟩
  · intro wanted dryRun new h
    obtain ⟨files', hprepare, hfiles⟩ := prepare_of_run h
    refine ⟨?_, files', complete_of_prepare hprepare, hfiles⟩
    rintro v rfl
    obtain ⟨cur, hcur, hnew, -⟩ := prepare_cases hprepare
    cases v with
    | nil => exact absurd hnew bumpVersion_none
    | cons c v =>
      rw [newVersion] at hnew
      · split_ifs at hnew
        exact (Except.ok.inj hnew).symm
      · simp
  · intro wanted dryRun h
    apply hstopped
    rintro ⟨new, files'⟩ hprepare
    have hcomplete := complete_of_prepare hprepare
    exact h.elim (fun hvalues => hvalues hcomplete.once) fun hsync => hsync hcomplete.onceSync
  · intro request dryRun stop h
    cases request with
    | printCurrent =>
      rw [run, main, run_get_bind, run_lift_bind]
      cases currentVersion (readText files.values) <;> rfl
    | release wanted =>
      rw [run_release] at h ⊢
      cases hprepare : prepare repr wanted files with
      | error stop => rfl
      | ok made =>
        rw [hprepare] at h
        cases h
  · intro cur hcur kind
    have hacc := accepts_of_currentVersion hcur
    refine ⟨?_, ?_, bumpVersion_iff hacc⟩
    · intro dryRun new h
      obtain ⟨files', hprepare, -⟩ := prepare_of_run h
      obtain ⟨cur', hcur', hnew, -⟩ := prepare_cases hprepare
      obtain rfl := Except.ok.inj (hcur.symm.trans hcur')
      exact hnew
    · intro new h
      obtain ⟨hnew, hlt⟩ := bumpVersion_lt hacc h
      exact ⟨length_numbers hacc, length_numbers hnew, hlt⟩

def unlines (lines : List String) : Text := lines.flatMap fun line => line.toList ++ ['\n']

/-- Each spot once. -/
def small : Files where
  values := unlines ["image:", "  name: \"ghcr.io/purdue-af\"", "  tag: \"0.14.4\"",
    "docker_image_tag: \"0.14.4\"", "display_name: \"Purdue AF 0.14.4\"",
    "image: \"ghcr.io/purdue-af:0.14.4\""]
  sync := unlines ["image: ghcr.io/purdue-af:0.14.4"]

theorem release_complete_small :
    (∃ files', Complete "0.15.0".toList small files' ∧
      (run (fun _ => "") (.release (.bump .minor)) false small).2 = files') ∧
    (∃ stop, run (fun _ => "") (.release (.bump .minor)) false ⟨small.values, []⟩ =
      (.error stop, ⟨small.values, []⟩)) ∧
    (run (fun _ => "") .printCurrent false ⟨[], []⟩).2 = ⟨[], []⟩ ∧
    bumpVersion "0.14.4".toList (some .minor) = .ok "0.15.0".toList ∧
    numbers "0.14.4".toList < numbers "0.15.0".toList := by
  have hrun : (run (fun _ => "") (.release (.bump .minor)) false small).1 = .ok "0.15.0".toList := by
    decide +kernel
  have hcur : currentVersion (readText small.values) = .ok "0.14.4".toList := by decide +kernel
  have hstop : (run (fun _ => "") .printCurrent false ⟨[], []⟩).1 =
      .error (.exit "cannot find docker_image_tag in values.yaml — layout changed?") := by decide +kernel
  have hsync : ¬OnceSync (readText []) := by
    intro h
    exact absurd (show ([] : List Text).length = 1 from h) (by decide)
  obtain ⟨-, files', hcomplete, hfiles⟩ := (release_complete (fun _ => "") small).1 _ _ _ hrun
  obtain ⟨htaken, hgreater, -⟩ := (release_complete (fun _ => "") small).2.2.2 _ hcur .minor
  have hnew := htaken _ _ hrun
  exact ⟨⟨files', hcomplete, hfiles⟩,
    (release_complete (fun _ => "") ⟨small.values, []⟩).2.1 _ _ (.inr hsync),
    (release_complete (fun _ => "") ⟨[], []⟩).2.2.1 _ _ _ hstop, hnew, (hgreater _ hnew).2.2⟩

theorem mem_spans {ι : Type} [DecidableEq ι] {pieces : List (Piece ι)} {k : ι} {v : Text}
    (h : .spot k v ∈ pieces) (n : ℕ) : ∃ m, (m, v) ∈ Piece.spans k n pieces := by
  induction pieces generalizing n with
  | nil => cases h
  | cons piece pieces ih =>
    rcases List.mem_cons.mp h with rfl | hmem
    · exact ⟨n, by simp [Piece.spans]⟩
    · cases piece with
      | kept u => exact ih hmem _
      | spot k' v' =>
        obtain ⟨m, hm⟩ := ih hmem (n + v'.length)
        rw [Piece.spans]
        split_ifs
        · exact ⟨m, List.mem_cons_of_mem _ hm⟩
        · exact ⟨m, hm⟩

theorem isNumber_replicate (n : ℕ) : IsNumber (List.replicate (n + 1) '1') := by
  refine ⟨by simp, ?_⟩
  intro c hc
  obtain rfl := List.eq_of_mem_replicate hc
  decide

theorem currentVersion_label {v : Text} (hv : accepts version none v = true) :
    currentVersion (join '"' ["docker_image_tag: ".toList, v, []]) = .ok v := by
  have hquote : '"' ∉ v := notMem_version hv (by decide) (by decide)
  have hsplit : Spot.label.slot.split '"' v = some ([], v, []) :=
    (split_closed rfl rfl).mpr ⟨rfl, rfl, rfl, accepts_version_prev hv⟩
  have hkey : keyAt Spot.label.slot.key none "docker_image_tag: ".toList = true :=
    keyAt_iff.mpr ⟨[], _, rfl, accepts_lit.mpr rfl⟩
  have hmore : ∀ x ∈ [v, []], '"' ∉ x := by simp [hquote]
  have hfound := found_join (apart_spots hv) (a := "docker_image_tag: ".toList) (by decide) hmore
    .label
  rw [currentVersion, Spot.pattern, hfound, Slot.values, Slot.hit, hkey, hsplit]
  rfl

/-- A version with a number of `n + 1` digits. -/
def long (n : ℕ) : Text := join '.' [List.replicate (n + 1) '1', ['0'], ['0']]

theorem accepts_long (n : ℕ) : accepts version none (long n) = true := by
  have hzero : IsNumber ['0'] := isNumber_toDigits 0
  exact accepts_version.mpr ⟨_, _, _, isNumber_replicate n, hzero, hzero, rfl⟩

theorem bumpVersion_long {n : ℕ} (hn : maxDigits ≤ n) (kind : Kind) :
    ¬∃ new, bumpVersion (long n) (some kind) = .ok new := by
  have hzero : IsNumber ['0'] := isNumber_toDigits 0
  have hnumbers : ∀ w ∈ [List.replicate (n + 1) '1', ['0'], ['0']], IsNumber w := by
    simp only [List.forall_mem_cons]
    exact ⟨isNumber_replicate n, hzero, hzero, by simp⟩
  rw [bumpVersion_iff (accepts_long n), long, splitOn_join (by simp) hnumbers]
  intro h
  have hlen := (h _ List.mem_cons_self).1
  rw [List.length_replicate] at hlen
  omega

/-- Ends of lines that are not `\n` are lost, and a bump of a number of 4301 digits fails. -/
theorem not_complete_always :
    ((run (fun _ => "") (.release (.bump .minor)) false
        ⟨small.values ++ ['\r', '\n'], small.sync⟩).1 = .ok "0.15.0".toList ∧
      ¬Replaces Spot.pattern (Spot.new "0.15.0".toList defaultRegistry)
        (small.values ++ ['\r', '\n'])
        (run (fun _ => "") (.release (.bump .minor)) false
          ⟨small.values ++ ['\r', '\n'], small.sync⟩).2.values) ∧
    currentVersion (join '"' ["docker_image_tag: ".toList, long 4300, []]) = .ok (long 4300) ∧
      ¬∃ new, bumpVersion (long 4300) (some .patch) = .ok new := by
  have hrun : (run (fun _ => "") (.release (.bump .minor)) false
      ⟨small.values ++ ['\r', '\n'], small.sync⟩).1 = .ok "0.15.0".toList := by decide +kernel
  refine ⟨⟨hrun, ?_⟩, currentVersion_label (accepts_long 4300), bumpVersion_long (le_refl _) .patch⟩
  obtain ⟨files', hprepare, hfiles⟩ := prepare_of_run hrun
  obtain ⟨cur, hcur, hnew, hvalues, -⟩ := prepare_cases hprepare
  have hv := accepts_of_newVersion (accepts_of_currentVersion hcur) hnew
  have hfree := free_of_apply hv (readText_free _) hvalues
  rintro ⟨pieces, hold, hpieces, hspans⟩
  rw [hfiles] at hpieces
  have hret : '\r' ∈ small.values ++ ['\r', '\n'] := by simp
  rw [hold] at hret
  obtain ⟨piece, hpiece, hret⟩ := List.mem_flatMap.mp hret
  cases piece with
  | kept u =>
    refine hfree ?_
    rw [show files'.values = _ from hpieces]
    exact List.mem_flatMap.mpr ⟨_, hpiece, hret⟩
  | spot k v =>
    obtain ⟨m, hm⟩ := mem_spans hpiece 0
    rw [hspans] at hm
    have hfound : ∀ x ∈ k.pattern.spans (small.values ++ ['\r', '\n']), '\r' ∉ x.2 := by
      clear hm hpiece
      cases k <;> decide +kernel
    exact hfound _ hm hret

end PurdueAF.AfVersion

import PurdueAF.ModelArchives

/-!
# One tree, archived in several ways

The members of an archive with directories around the tree do under those directories what the
members of the plain archive do, and the model's root is found there.
-/
namespace PurdueAF.ModelUploads
open FileTree

variable {repr : Name → String}

/-- `c` does under `b` what `c₀` does. -/
structure Based {σ : Type} (b : List Name) (c c₀ : Calls σ) : Prop where
  ended : c.ended = c₀.ended
  proper : ∀ op ∈ c₀.ops, op.path ≠ []
  starts : c.ops = [] ∨ makedirs b <+: c.ops
  run_eq : ∀ d t, Stands d b → Fresh d b → t.get? [] = none →
    run (graft b t d) c.ops = (run t c₀.ops).map fun t' => graft b t' d

theorem based_nil {σ : Type} (b : List Name) (e : Except String σ) :
    Based b (⟨[], e⟩ : Calls σ) ⟨[], e⟩ :=
  ⟨rfl, by simp, .inl rfl, fun _ _ _ _ _ => rfl⟩

theorem based_under {σ : Type} {b : List Name} {ops ops₀ : List (Op Name)} (e : Except String σ)
    (hops : ops = makedirs b ++ ops₀.map (Op.under b)) (hproper : ∀ op ∈ ops₀, op.path ≠ []) :
    Based b (⟨ops, e⟩ : Calls σ) ⟨ops₀, e⟩ := by
  subst hops
  refine ⟨rfl, hproper, .inr (List.prefix_append _ _), ?_⟩
  intro d t hstands hfresh ht
  rw [run_append, run_makedirs_of_stands (stands_graft hstands ht), Option.bind_some,
    run_graft hfresh hproper]

theorem based_place (b : List Name) {rel : List Name} (hrel : rel ≠ []) (remaining : ℤ)
    (i : Item) : Based b (place b rel remaining i) (place [] rel remaining i) := by
  have hdirs : ∀ path : List Name, ∀ op ∈ makedirs path, op.path ≠ [] := by
    intro path op hop
    obtain ⟨p, hne, -, rfl⟩ := mem_makedirs.mp hop
    exact hne
  rw [place, place]
  split_ifs
  · exact based_nil b _
  · exact based_under _ (makedirs_append b rel) (hdirs rel)
  · exact based_nil b _
  · refine based_under _ ?_ ?_
    · rw [List.dropLast_append_of_ne_nil hrel, makedirs_append]
      simp [Op.under]
    · intro op hop
      rcases List.mem_append.mp hop with hop | hop
      · exact hdirs _ op hop
      · rcases List.mem_cons.mp hop with rfl | hop
        · exact hrel
        · obtain ⟨chunk, -, rfl⟩ := List.mem_map.mp hop
          exact hrel

theorem based_itemCalls (f : Format) (pre : Name) (b : List Name) (remaining : ℤ) (i : Item) :
    Based b (itemCalls repr f pre b remaining i) (itemCalls repr f pre [] remaining i) := by
  rw [itemCalls, itemCalls]
  split_ifs
  · exact based_nil b _
  · split
    · exact based_nil b _
    · rename_i rel hrel
      exact based_place b (proper_of_safeRelpath hrel).1 remaining i

theorem based_forEach {σ μ : Type} {b : List Name} {body body₀ : σ → μ → Calls σ} {s : σ}
    {ms : List μ} (h : ∀ m ∈ ms, ∀ s, Based b (body s m) (body₀ s m)) :
    Based b (forEach body s ms) (forEach body₀ s ms) := by
  induction ms generalizing s with
  | nil => exact based_nil b _
  | cons m ms ih =>
    have hm := h m (by simp) s
    have hrest : ∀ s, Based b (forEach body s ms) (forEach body₀ s ms) :=
      fun s => ih fun m' hm' => h m' (by simp [hm'])
    rw [forEach, forEach]
    rcases hbody : body s m with ⟨ops, e | s'⟩ <;> rcases hbody₀ : body₀ s m with ⟨ops₀, e₀ | s₀⟩ <;>
      rw [hbody, hbody₀] at hm
    · exact hm
    · cases hm.ended
    · cases hm.ended
    · obtain rfl : s' = s₀ := Except.ok.inj hm.ended
      have hms := hrest s'
      refine ⟨hms.ended, ?_, ?_, ?_⟩
      · intro op hop
        rcases List.mem_append.mp hop with hop | hop
        · exact hm.proper op hop
        · exact hms.proper op hop
      · rcases hm.starts with hnil | hpre
        · obtain rfl : ops = [] := hnil
          exact hms.starts
        · exact .inr (hpre.trans (List.prefix_append _ _))
      · intro d t hstands hfresh ht
        simp only [Calls.after, run_append]
        rw [hm.run_eq d t hstands hfresh ht]
        cases hrun : run t ops₀ with
        | none => rfl
        | some t' =>
          have ht' : t'.get? [] = none := get?_root_of_run hm.proper ht hrun
          simpa [hrun] using hms.run_eq d t' hstands hfresh ht'

theorem mem_forEach_of_ok {σ μ : Type} {body : σ → μ → Calls σ} {s s' : σ} {ms : List μ}
    (h : (forEach body s ms).ended = .ok s') {m : μ} (hm : m ∈ ms) :
    ∃ s₁ s₂, (body s₁ m).ended = .ok s₂ ∧ ∀ op ∈ (body s₁ m).ops, op ∈ (forEach body s ms).ops := by
  induction ms generalizing s with
  | nil => simp at hm
  | cons m' ms ih =>
    rw [forEach] at h ⊢
    rcases hbody : body s m' with ⟨ops, e | s₁⟩
    · rw [hbody] at h
      cases h
    · rw [hbody] at h
      rcases List.mem_cons.mp hm with rfl | hm
      · exact ⟨s, s₁, by rw [hbody], fun op hop => List.mem_append_left _ (by rwa [hbody] at hop)⟩
      · obtain ⟨s₂, s₃, hended, hops⟩ := ih h hm
        exact ⟨s₂, s₃, hended, fun op hop => List.mem_append_right _ (hops op hop)⟩

theorem mem_children {d : Disk Name} {path : List Name} {c : Name} :
    c ∈ children d path ↔ d.get? (path ++ [c]) ≠ none := by
  rw [children, List.mem_dedup, List.mem_filterMap, ne_eq, Dict.get?_eq_none_iff, not_not,
    List.mem_map]
  constructor
  · rintro ⟨e, he, hc⟩
    split_ifs at hc with hdrop
    · refine ⟨e, he, ?_⟩
      rw [← hdrop]
      exact (List.dropLast_append_getLast? c hc).symm
  · rintro ⟨e, he, hpath⟩
    refine ⟨e, he, ?_⟩
    simp [hpath]

theorem looksLikeModelDir_iff {d : Disk Name} {path : List Name} :
    looksLikeModelDir d path = true ↔
      (∃ bytes, d.get? (path ++ ["config.pbtxt".toList]) = some (.file bytes)) ∨
        ∃ v, d.get? (path ++ [v]) = some .dir ∧ isVersionName v = true := by
  have hfile : ∀ p, isFile d p = true ↔ ∃ bytes, d.get? p = some (.file bytes) := by
    intro p
    rw [isFile]
    split <;> simp_all
  rw [looksLikeModelDir, Bool.or_eq_true, hfile, List.any_eq_true]
  refine or_congr_right ⟨?_, ?_⟩
  · rintro ⟨v, -, hv⟩
    rw [Bool.and_eq_true, isDir, decide_eq_true_eq] at hv
    exact ⟨v, hv⟩
  · rintro ⟨v, hdir, hv⟩
    refine ⟨v, mem_children.mpr (by simp [hdir]), ?_⟩
    rw [Bool.and_eq_true, isDir, decide_eq_true_eq]
    exact ⟨hdir, hv⟩

theorem looksLikeModelDir_graft {b : List Name} {t d : Disk Name} (hd : Fresh d b) :
    looksLikeModelDir (graft b t d) b = looksLikeModelDir t [] := by
  have hget : ∀ c : Name, (graft b t d).get? (b ++ [c]) = t.get? [c] :=
    fun c => get?_graft_under hd (List.cons_ne_nil c [])
  rw [Bool.eq_iff_iff, looksLikeModelDir_iff, looksLikeModelDir_iff]
  simp only [hget, List.nil_append]

/-- A version's name goes into the tree as it is. -/
theorem version_kept {v : Name} (h : isVersionName v = true) :
    parts v = some [v] ∧ isJunk [v] = false ∧ paxHeader v = false := by
  rw [isVersionName, Bool.and_eq_true, List.all_eq_true] at h
  obtain ⟨hne, hdigits⟩ := h
  have hnot : ∀ c : Char, (('0' ≤ c && c ≤ '9') = false) → c ∉ v := by
    intro c hc hmem
    rw [hdigits c hmem] at hc
    cases hc
  have hslash : '/' ∉ v := hnot '/' (by decide)
  have hpoint : '.' ∉ v := hnot '.' (by decide)
  have hsame : v.map slashes = v := by
    refine (List.map_congr_left ?_).trans (List.map_id v)
    intro c hc
    have hback : c ≠ '\\' := fun h => hnot '\\' (by decide) (h ▸ hc)
    rw [slashes, if_neg hback, id]
  refine ⟨?_, ?_, ?_⟩
  · have hskip : ¬ (v = [] ∨ v = ['.']) := by
      rintro (rfl | rfl)
      · simp at hne
      · simp at hpoint
    have hbad : ¬ (v = ['.', '.'] ∨ ':' ∈ v) := by
      rintro (rfl | hcolon)
      · simp at hpoint
      · exact hnot ':' (by decide) hcolon
    rw [parts_eq, hsame, List.splitOn_eq_singleton hslash, safeParts, if_neg hskip, if_neg hbad]
    rfl
  · rw [Bool.eq_false_iff]
    intro hjunk
    have hfiles : ∀ w ∈ [".DS_Store".toList, "Thumbs.db".toList, "desktop.ini".toList], '.' ∈ w := by
      decide
    simp only [isJunk, List.any_cons, List.any_nil, Bool.or_false, Bool.or_eq_true,
      decide_eq_true_eq, List.isPrefixOf_iff_prefix] at hjunk
    rcases hjunk with (hmac | hpre) | hmem
    · exact hnot '_' (by decide) (by rw [hmac]; decide)
    · exact hpoint (hpre.subset (by decide))
    · exact hpoint (hfiles v hmem)
  · rw [Bool.eq_false_iff]
    intro hpax
    obtain ⟨c, hc, hpre⟩ := (paxHeader_iff v).mp hpax
    rw [List.splitOn_eq_singleton hslash, List.mem_singleton] at hc
    subst hc
    exact hnot 'P' (by decide) (hpre.subset (by decide))

/-- A member of the tree's archive with its name kept makes what it is. -/
theorem itemCalls_of_kept {f : Format} {i : Item} {name : Name} (hpath : i.path = [name])
    (hkept : parts name = some [name]) (hpax : paxHeader name = false) (remaining : ℤ) :
    itemCalls repr f [] [] remaining i = place [] [name] remaining i := by
  have hjoin : joined i.path = name := by simp [hpath, joined]
  have hparts : parts (memberName f [] i) = some [name] := by
    rw [memberName, hjoin, List.nil_append]
    split_ifs
    · rw [parts_trailing, hkept]
    · rw [List.append_nil, hkept]
  have hnot : ¬ (f = .tar ∧ paxHeader (memberName f [] i) = true) := by
    rintro ⟨rfl, hp⟩
    rw [memberName, hjoin, List.nil_append, if_neg (by simp), List.append_nil, hpax] at hp
    cases hp
  have hsafe : safeRelpath repr (memberName f [] i) = .ok [name] := by
    rw [safeRelpath, hparts]
  rw [itemCalls, if_neg hnot, hsafe]

/-- What is unpacked looks like a model where the tree does. -/
theorem looksLikeModelDir_extracted {f : Format} {tree : List Item} {t : Disk Name}
    {budget left : ℤ} (htree : looksLikeModelDir (diskOf tree) [] = true)
    (hended : (forEach (itemCalls repr f [] []) budget tree).ended = .ok left)
    (hrun : run [] (forEach (itemCalls repr f [] []) budget tree).ops = some t) :
    looksLikeModelDir t [] = true := by
  have hitem : ∀ {path : List Name} {n : Node}, (diskOf tree).get? path = some n →
      ∃ i ∈ tree, i.path = path ∧ i.node = n := by
    intro path n h
    obtain ⟨i, hi, heq⟩ := List.mem_map.mp (Dict.mem_of_get? h)
    rw [Prod.mk.injEq] at heq
    exact ⟨i, hi, heq⟩
  rw [looksLikeModelDir_iff] at htree ⊢
  rcases htree with ⟨bytes, hfile⟩ | ⟨v, hdir, hv⟩
  · obtain ⟨i, hi, hpath, hnode⟩ := hitem hfile
    obtain ⟨s₁, s₂, hok, hops⟩ := mem_forEach_of_ok hended hi
    rw [itemCalls_of_kept hpath (by decide) (by decide)] at hok hops
    have hsome : ¬ i.content.isNone = true := by
      rw [Item.node] at hnode
      split at hnode
      · cases hnode
      · rename_i hc
        simp [hc]
    refine .inl (file_of_run hrun (hops _ ?_))
    rw [place, if_neg (by decide), if_neg hsome] at hok ⊢
    split_ifs at hok ⊢
    exact List.mem_append_right _ List.mem_cons_self
  · obtain ⟨i, hi, hpath, hnode⟩ := hitem hdir
    obtain ⟨s₁, s₂, hok, hops⟩ := mem_forEach_of_ok hended hi
    obtain ⟨hkept, hjunk, hpax⟩ := version_kept hv
    rw [itemCalls_of_kept hpath hkept hpax] at hok hops
    have hnone : i.content.isNone = true := by
      rw [Item.node] at hnode
      split at hnode
      · rename_i hc
        simp [hc]
      · cases hnode
    refine .inr ⟨v, dir_of_run hrun (hops _ ?_), hv⟩
    rw [place, hjunk, if_neg (by simp), if_pos hnone]
    exact mem_makedirs.mpr ⟨[v], by simp, List.prefix_rfl, rfl⟩

theorem resolveModelRoot_of_looksLike {d : Disk Name} {path : List Name} (rounds : ℕ)
    (h : looksLikeModelDir d path = true) : resolveModelRoot d rounds path = path := by
  cases rounds with
  | zero => rfl
  | succ rounds => rw [resolveModelRoot, if_pos h]

theorem children_eq_singleton {d : Disk Name} {path : List Name} {c : Name}
    (h : ∀ x, d.get? (path ++ [x]) ≠ none ↔ x = c) : children d path = [c] := by
  have hnodup : (children d path).Nodup := List.nodup_dedup _
  have hmem : ∀ x, x ∈ children d path ↔ x = c := fun x => mem_children.trans (h x)
  refine List.perm_singleton.mp ((List.perm_ext_iff_of_nodup hnodup (by simp)).mpr ?_)
  intro x
  rw [hmem, List.mem_singleton]

/-- The disk below `dest` is one chain of directories, of names that wrap, with the rest at its
end. -/
structure Chain (f : Format) (d : Disk Name) (dest ws : List Name) : Prop where
  wraps : ∀ w ∈ ws, Wraps f w
  dirs : ∀ us w, us ++ [w] <+: ws → d.get? (dest ++ us ++ [w]) = some .dir
  only : ∀ us w x, us ++ [w] <+: ws → d.get? (dest ++ us ++ [x]) ≠ none → x = w

theorem resolveModelRoot_chain {f : Format} {d : Disk Name} {dest ws us : List Name} {rounds : ℕ}
    (h : Chain f d dest (us ++ ws)) (hlooks : looksLikeModelDir d (dest ++ us ++ ws) = true)
    (hrounds : ws.length ≤ rounds) :
    resolveModelRoot d rounds (dest ++ us) = dest ++ us ++ ws := by
  induction ws generalizing us rounds with
  | nil =>
    rw [List.append_nil] at hlooks ⊢
    exact resolveModelRoot_of_looksLike rounds hlooks
  | cons w ws ih =>
    obtain ⟨rounds, rfl⟩ : ∃ n, rounds = n + 1 := ⟨rounds - 1, by simp at hrounds; omega⟩
    have hpre : us ++ [w] <+: us ++ w :: ws := by simp
    have hw : Wraps f w := h.wraps w (by simp)
    have hdir := h.dirs us w hpre
    have hchildren : children d (dest ++ us) = [w] := by
      apply children_eq_singleton
      intro x
      constructor
      · exact h.only us w x hpre
      · rintro rfl
        rw [hdir]
        exact Option.some_ne_none _
    have hnot : ¬ looksLikeModelDir d (dest ++ us) = true := by
      rw [looksLikeModelDir_iff]
      rintro (⟨bytes, hfile⟩ | ⟨v, hv, hversion⟩)
      · have := h.only us w _ hpre (by rw [hfile]; exact Option.some_ne_none _)
        rw [this, hdir] at hfile
        cases hfile
      · have := h.only us w _ hpre (by rw [hv]; exact Option.some_ne_none _)
        rw [this, hw.notVersion] at hversion
        cases hversion
    have hkept : (children d (dest ++ us)).filter (fun c => !isJunk [c]) = [w] := by
      rw [hchildren, List.filter_cons_of_pos (by simp [hw.notJunk]), List.filter_nil]
    have hstep : resolveModelRoot d (rounds + 1) (dest ++ us) =
        resolveModelRoot d rounds (dest ++ us ++ [w]) := by
      rw [resolveModelRoot, if_neg hnot, hkept]
      exact if_pos (by simpa [isDir] using hdir)
    have hassoc : dest ++ us ++ w :: ws = dest ++ (us ++ [w]) ++ ws := by simp
    rw [hstep, hassoc, List.append_assoc dest us [w]]
    refine ih ?_ ?_ ?_
    · simpa using h
    · rwa [← hassoc]
    · simpa using hrounds

theorem subtree_graft {b : List Name} {t d : Disk Name} (ht : t.get? [] = none) (hd : Fresh d b) :
    subtree (graft b t d) b = t := by
  have hbelow : subtree d b = [] := by
    rw [subtree, List.filterMap_eq_nil_iff]
    rintro ⟨p, n⟩ he
    apply if_neg
    rintro ⟨⟨q, rfl⟩, hne⟩
    exact Dict.get?_ne_none_of_mem he (hd q (by rintro rfl; simp at hne))
  have hover : subtree (t.map fun e => (b ++ e.1, e.2)) b = t := by
    have hne : ∀ e ∈ t, e.1 ≠ [] := by
      rintro ⟨q, n⟩ he rfl
      exact Dict.get?_ne_none_of_mem he ht
    rw [subtree, List.filterMap_map]
    refine (List.filterMap_congr ?_).trans List.filterMap_some
    rintro ⟨q, n⟩ he
    have hq : q ≠ [] := hne _ he
    simp [hq]
  rw [graft, subtree, List.filterMap_append]
  exact (congrArg₂ (· ++ ·) hover hbelow).trans (List.append_nil t)

theorem safeRelpath_of_parts {name : Name} {rel : List Name} (h : parts name = some rel)
    (hne : rel ≠ []) : safeRelpath repr name = .ok rel := by
  rw [safeRelpath, h]
  split
  · rename_i h
    cases h
  · rename_i h
    exact absurd (Option.some.inj h) hne
  · rename_i h
    rw [Option.some.inj h]

/-- A member whose name has the components `ws` before those of another does what that one does
under `ws`. -/
theorem alike_of_parts {tree : List Item} {n n' : Item → Name} {f : Format} {pre pre' : Name}
    {i i' : Item} {ws : List Name} (hi : i ∈ tree) (hn : n i = memberName f pre i)
    (hn' : n' i = memberName f pre' i') (hcontent : i'.content = i.content)
    (hpax : f = .tar → paxHeader (memberName f pre' i') = paxHeader (memberName f pre i))
    (hparts : parts (memberName f pre' i') = (parts (memberName f pre i)).map (ws ++ ·))
    (hkept : parts (memberName f pre i) ≠ some []) (hjunk : isJunk ws = false) (dest : List Name)
    (remaining : ℤ) :
    AlikeCalls repr tree n n' (itemCalls repr f pre (dest ++ ws) remaining i)
      (itemCalls repr f pre' dest remaining i') := by
  have hcond : (f = .tar ∧ paxHeader (memberName f pre' i') = true) ↔
      (f = .tar ∧ paxHeader (memberName f pre i) = true) :=
    and_congr_right fun hf => by rw [hpax hf]
  rw [itemCalls, itemCalls]
  by_cases hskip : f = .tar ∧ paxHeader (memberName f pre i) = true
  · rw [if_pos hskip, if_pos (hcond.mpr hskip)]
    exact alikeCalls_rfl _
  rw [if_neg hskip, if_neg fun h => hskip (hcond.mp h)]
  cases hrel : parts (memberName f pre i) with
  | none =>
    have hnone : parts (memberName f pre' i') = none := by rw [hparts, hrel]; rfl
    have hbad : safeRelpath repr (memberName f pre i) =
        .error ("Unsafe path in archive: " ++ repr (n i)) := by rw [safeRelpath, hrel, hn]
    have hbad' : safeRelpath repr (memberName f pre' i') =
        .error ("Unsafe path in archive: " ++ repr (n' i)) := by rw [safeRelpath, hnone, hn']
    rw [hbad, hbad']
    exact ⟨rfl, .inr ⟨i, hi, rfl, rfl⟩⟩
  | some rel =>
    have hne : rel ≠ [] := fun h => hkept (by rw [hrel, h])
    have hparts' : parts (memberName f pre' i') = some (ws ++ rel) := by rw [hparts, hrel]; rfl
    rw [safeRelpath_of_parts hrel hne, safeRelpath_of_parts hparts' (by simp [hne])]
    have hplace : place dest (ws ++ rel) remaining i' = place (dest ++ ws) rel remaining i := by
      rw [place, place, isJunk_append, hjunk, Bool.false_or, Item.chunks, Item.chunks, hcontent,
        List.append_assoc]
    dsimp only
    rw [hplace]
    exact alikeCalls_rfl _

theorem parts_memberName (f : Format) (pre : Name) (i : Item) :
    parts (memberName f pre i) = parts (pre ++ joined i.path) := by
  rw [memberName]
  split_ifs
  · rw [parts_trailing]
  · rw [List.append_nil]

theorem wraps_names {f : Format} {w : Name} (h : Wraps f w) : w ≠ [] ∧ '/' ∉ w := by
  obtain ⟨hne, -, -, hslash⟩ :=
    proper_of_mem_safeParts (fun c hc => notMem_of_mem_splitOn hc) h.kept w (by simp)
  exact ⟨hne, hslash⟩

/-- One to four directories around a tree, from the top, and those of them that have a member of
their own. -/
structure Wrapping (f : Format) where
  dirs : List Name
  ne : dirs ≠ []
  depth : dirs.length ≤ 4
  wraps : ∀ w ∈ dirs, Wraps f w
  parents : List { p : List Name // p ≠ [] ∧ p <+: dirs }

namespace Wrapping
variable {f : Format} (w : Wrapping f)

def item (i : Item) : Item where
  path := w.dirs ++ i.path
  content := i.content
  ne := by simp [i.ne]
  names := by
    intro c hc
    rcases List.mem_append.mp hc with hc | hc
    · exact wraps_names (w.wraps c hc)
    · exact i.names c hc

def parent (p : { p : List Name // p ≠ [] ∧ p <+: w.dirs }) : Item where
  path := p.1
  content := none
  ne := p.2.1
  names := fun c hc => wraps_names (w.wraps c (p.2.2.subset hc))

def around (tree : List Item) : List Item := w.parents.map w.parent ++ tree.map w.item

theorem memberName_item (i : Item) :
    memberName f [] (w.item i) = joined w.dirs ++ '/' :: memberName f [] i := by
  rw [memberName, memberName, item, joined_append w.ne i.ne]
  simp

theorem parts_item (i : Item) :
    parts (memberName f [] (w.item i)) = (parts (memberName f [] i)).map (w.dirs ++ ·) := by
  rw [w.memberName_item, parts_slash, parts_joined fun v hv => (w.wraps v hv).kept]
  rfl

theorem paxHeader_item (i : Item) (hf : f = .tar) :
    paxHeader (memberName f [] (w.item i)) = paxHeader (memberName f [] i) := by
  rw [w.memberName_item, paxHeader_slash, paxHeader_joined fun v hv => (w.wraps v hv).notPax hf,
    Bool.false_or]

theorem itemCalls_parent (dest : List Name) (remaining : ℤ)
    (p : { p : List Name // p ≠ [] ∧ p <+: w.dirs }) :
    itemCalls repr f [] dest remaining (w.parent p) = ⟨makedirs (dest ++ p.1), .ok remaining⟩ := by
  have hwraps : ∀ v ∈ p.1, Wraps f v := fun v hv => w.wraps v (p.2.2.subset hv)
  have hparts : parts (memberName f [] (w.parent p)) = some p.1 := by
    rw [parts_memberName, List.nil_append, parent, parts_joined fun v hv => (hwraps v hv).kept]
  have hpax : ¬ (f = .tar ∧ paxHeader (memberName f [] (w.parent p)) = true) := by
    rintro ⟨rfl, hpax⟩
    rw [memberName, List.nil_append, parent, if_neg (by simp), List.append_nil,
      paxHeader_joined fun v hv => (hwraps v hv).notPax rfl] at hpax
    cases hpax
  have hjunk : ¬ isJunk p.1 = true := by
    rw [isJunk_eq_false fun v hv => (hwraps v hv).notJunk]
    simp
  rw [itemCalls, if_neg hpax, safeRelpath_of_parts hparts p.2.1]
  dsimp only
  rw [place, if_neg hjunk, if_pos (by rfl)]

/-- The members of the wrapped tree, as those of the tree, but under the directories. -/
theorem alike_itemCalls {tree : List Item} {i : Item} (hi : i ∈ tree)
    (hkept : parts (joined i.path) ≠ some []) (dest : List Name) (remaining : ℤ) :
    AlikeCalls repr tree (memberName f []) (memberName f [] ∘ w.item)
      (itemCalls repr f [] (dest ++ w.dirs) remaining i)
      (itemCalls repr f [] dest remaining (w.item i)) := by
  have hname : (memberName f [] ∘ w.item) i = memberName f [] (w.item i) := rfl
  refine alike_of_parts hi rfl hname rfl (w.paxHeader_item i) (w.parts_item i) ?_ ?_ dest remaining
  · rw [parts_memberName]
    exact hkept
  · exact isJunk_eq_false fun v hv => (w.wraps v hv).notJunk

end Wrapping

theorem alike_dotted {tree : List Item} {f : Format} {i : Item} (hi : i ∈ tree)
    (hkept : parts (joined i.path) ≠ some []) (dest : List Name) (remaining : ℤ) :
    AlikeCalls repr tree (memberName f []) (memberName f "./".toList)
      (itemCalls repr f [] dest remaining i) (itemCalls repr f "./".toList dest remaining i) := by
  have hname : memberName f "./".toList i = ['.'] ++ '/' :: memberName f [] i := by
    rw [memberName, memberName, List.nil_append]
    rfl
  have hparts : parts (memberName f "./".toList i) =
      (parts (memberName f [] i)).map (([] : List Name) ++ ·) := by
    rw [parts_memberName, parts_memberName, parts_dotted, List.nil_append]
    cases parts (joined i.path) <;> rfl
  have hpax : paxHeader (memberName f "./".toList i) = paxHeader (memberName f [] i) := by
    rw [hname, paxHeader_slash]
    rfl
  have h : AlikeCalls repr tree (memberName f []) (memberName f "./".toList)
      (itemCalls repr f [] (dest ++ []) remaining i)
      (itemCalls repr f "./".toList dest remaining i) := by
    refine alike_of_parts hi rfl rfl rfl (fun _ => hpax) hparts ?_ rfl dest remaining
    rw [parts_memberName]
    exact hkept
  rwa [List.append_nil] at h

/-- The disk after the directories down to `b` are made, where only those of `b` are wanting. -/
structure Opened (d : Disk Name) (b : List Name) (d' : Disk Name) : Prop where
  get : ∀ p, d'.get? p = if p ≠ [] ∧ p <+: b then some .dir else d.get? p

theorem exists_opened {d : Disk Name} {dest ws : List Name} (hstands : Stands d dest)
    (hfresh : Fresh d dest) {parents : List (List Name)} (hparents : ∀ p ∈ parents, p <+: ws) :
    ∃ d₁ d₂, run d (parents.flatMap fun p => makedirs (dest ++ p)) = some d₁ ∧
      run d₁ (makedirs (dest ++ ws)) = some d₂ ∧ Opened d (dest ++ ws) d₂ := by
  have hfree : ∀ p, p ≠ [] → p <+: dest ++ ws → d.get? p = none ∨ d.get? p = some .dir := by
    intro p hne hp
    rcases List.prefix_or_prefix_of_prefix hp (List.prefix_append dest ws) with h | ⟨q, rfl⟩
    · exact .inr (hstands p hne h)
    · by_cases hq : q = []
      · subst hq
        rw [List.append_nil] at hne ⊢
        exact .inr (hstands dest hne List.prefix_rfl)
      · exact .inl (hfresh q hq)
  have hmap : (parents.flatMap fun p => makedirs (dest ++ p)) =
      (parents.flatMap fun p => (dest ++ p).inits.tail).map .mkdir := by
    rw [List.map_flatMap]
    rfl
  have habove : ∀ p ∈ parents.flatMap fun p => (dest ++ p).inits.tail,
      p ≠ [] ∧ p <+: dest ++ ws := by
    intro p hp
    obtain ⟨u, hu, hp⟩ := List.mem_flatMap.mp hp
    obtain ⟨hne, hpre⟩ := mem_tail_inits.mp hp
    exact ⟨hne, hpre.trans ((List.prefix_append_right_inj dest).mpr (hparents u hu))⟩
  obtain ⟨d₁, hrun₁, hget₁⟩ := run_mkdirs fun p hp =>
    hfree p (habove p hp).1 (habove p hp).2
  have hfree₁ : ∀ p ∈ (dest ++ ws).inits.tail, d₁.get? p = none ∨ d₁.get? p = some .dir := by
    intro p hp
    obtain ⟨hne, hpre⟩ := mem_tail_inits.mp hp
    rw [hget₁]
    split_ifs
    · exact .inr rfl
    · exact hfree p hne hpre
  obtain ⟨d₂, hrun₂, hget₂⟩ := run_mkdirs hfree₁
  refine ⟨d₁, d₂, by rw [hmap, hrun₁], hrun₂, ⟨fun p => ?_⟩⟩
  rw [hget₂, hget₁]
  simp only [mem_tail_inits]
  split_ifs with h h'
  · rfl
  · exact absurd (habove p h') h
  · rfl

section Opened
variable {d d' : Disk Name} {dest ws : List Name} (h : Opened d (dest ++ ws) d')
include h

theorem stands_of_opened : Stands d' (dest ++ ws) := by
  intro p hne hp
  rw [h.get, if_pos ⟨hne, hp⟩]

theorem fresh_of_opened (hfresh : Fresh d dest) : Fresh d' (dest ++ ws) := by
  intro q hq
  have hnot : ¬ (dest ++ ws ++ q ≠ [] ∧ dest ++ ws ++ q <+: dest ++ ws) := by
    rintro ⟨-, hp⟩
    have := hp.length_le
    simp [hq] at this
  rw [h.get, if_neg hnot, List.append_assoc]
  exact hfresh (ws ++ q) (by simp [hq])

theorem chain_of_opened {f : Format} {t : Disk Name} (hfresh : Fresh d dest)
    (hwraps : ∀ w ∈ ws, Wraps f w) (ht : t.get? [] = none) :
    Chain f (graft (dest ++ ws) t d') dest ws := by
  -- nothing of the tree is as high as a directory of the chain
  have hget : ∀ us w x, us ++ [w] <+: ws →
      (graft (dest ++ ws) t d').get? (dest ++ us ++ [x]) = d'.get? (dest ++ us ++ [x]) := by
    intro us w x hpre
    apply get?_graft_of_not_under
    rintro q hq heq
    have hlen := hpre.length_le
    have hlen' := congrArg List.length heq
    obtain rfl : q = [] := by
      apply List.eq_nil_of_length_eq_zero
      simp only [List.length_append, List.length_singleton] at hlen hlen'
      omega
    exact hq ht
  refine ⟨hwraps, ?_, ?_⟩
  · intro us w hpre
    rw [hget us w w hpre, h.get, if_pos]
    refine ⟨by simp, ?_⟩
    rw [List.append_assoc]
    exact (List.prefix_append_right_inj dest).mpr hpre
  · intro us w x hpre hx
    rw [hget us w x hpre, h.get] at hx
    split_ifs at hx with hp
    · rw [List.append_assoc] at hp
      have hx' : us ++ [x] <+: ws := (List.prefix_append_right_inj dest).mp hp.2
      have heq : us ++ [x] = us ++ [w] :=
        (List.prefix_of_prefix_length_le hx' hpre (by simp)).eq_of_length (by simp)
      simpa using heq
    · rw [List.append_assoc] at hx
      exact absurd (hfresh (us ++ [x]) (by simp)) hx

end Opened

section Outcomes
variable {V : Type} (validate : Disk Name → Name → V) (valid : V → Bool)

/-- One outcome, but for the member that a refusal of its path names: the same item's. -/
def AlikeOutcomes (repr : Name → String) (tree : List Item) (n n' : Item → Name)
    (o o' : Except (Failed V) (Installed V × Models)) : Prop :=
  o = o' ∨ ∃ i ∈ tree, o = .error (.refused ("Unsafe path in archive: " ++ repr (n i))) ∧
    o' = .error (.refused ("Unsafe path in archive: " ++ repr (n' i)))

variable {validate valid} {tree : List Item} {n n' : Item → Name} {extractTo : List Name}
  {form : Form} {models : Models} {o o' : Option (Disk Name)}

theorem alike_installExtracted {e e' : Except String ℤ}
    (hended : e = e' ∨ ∃ i ∈ tree, e = .error ("Unsafe path in archive: " ++ repr (n i)) ∧
      e' = .error ("Unsafe path in archive: " ++ repr (n' i)))
    (hnone : o = none ↔ o' = none)
    (hok : ∀ left d d', e = .ok left → o = some d → o' = some d' →
      installExtracted repr validate valid extractTo form models (some d) (.ok left) =
        installExtracted repr validate valid extractTo form models (some d') (.ok left)) :
    AlikeOutcomes repr tree n n'
      (installExtracted repr validate valid extractTo form models o e)
      (installExtracted repr validate valid extractTo form models o' e') := by
  cases o with
  | none =>
    obtain rfl := hnone.mp rfl
    exact .inl rfl
  | some d =>
    obtain ⟨d', rfl⟩ := Option.ne_none_iff_exists'.mp fun h => by cases hnone.mpr h
    rcases hended with rfl | ⟨i, hi, rfl, rfl⟩
    · cases hend : e with
      | error e => exact .inl rfl
      | ok left => exact .inl (hok left d d' hend rfl rfl)
    · exact .inr ⟨i, hi, rfl, rfl⟩

/-- With a name given, what is installed is the tree below the root alone. -/
theorem installExtracted_some (hname : form.name ≠ []) {d t : Disk Name} {left : ℤ}
    (ht : subtree d (resolveModelRoot d 5 extractTo) = t) :
    installExtracted repr validate valid extractTo form models (some d) (.ok left) =
      installTree repr validate valid t form.name form.overwrite models := by
  rw [installExtracted, ht, if_neg hname]

end Outcomes

theorem forEach_around {f : Format} (w : Wrapping f) (dest : List Name) (budget : ℤ)
    (tree : List Item) :
    forEach (itemCalls repr f [] dest) budget (w.around tree) =
      (forEach (fun s i => itemCalls repr f [] dest s (w.item i)) budget tree).after
        (w.parents.flatMap fun p => makedirs (dest ++ p.1)) := by
  rw [Wrapping.around]
  induction w.parents with
  | nil =>
    rw [List.map_nil, List.nil_append, forEach_map]
    rfl
  | cons p parents ih =>
    rw [List.map_cons, List.cons_append, forEach, w.itemCalls_parent]
    refine (congrArg (Calls.after (makedirs (dest ++ p.1))) ih).trans ?_
    simp [Calls.after]

section Wrapped
variable {f : Format} (w : Wrapping f) {tree : List Item} {d : Disk Name} {dest : List Name}
  {budget : ℤ}

theorem ended_around (hkept : ∀ i ∈ tree, parts (joined i.path) ≠ some []) :
    (forEach (itemCalls repr f [] dest) budget tree).ended =
        (forEach (itemCalls repr f [] dest) budget (w.around tree)).ended ∨
      ∃ i ∈ tree, (forEach (itemCalls repr f [] dest) budget tree).ended =
          .error ("Unsafe path in archive: " ++ repr (memberName f [] i)) ∧
        (forEach (itemCalls repr f [] dest) budget (w.around tree)).ended =
          .error ("Unsafe path in archive: " ++ repr ((memberName f [] ∘ w.item) i)) := by
  have hbased : ∀ b, Based b (forEach (itemCalls repr f [] b) budget tree)
      (forEach (itemCalls repr f [] []) budget tree) :=
    fun b => based_forEach fun i _ s => based_itemCalls f [] b s i
  have halike : AlikeCalls repr tree (memberName f []) (memberName f [] ∘ w.item)
      (forEach (itemCalls repr f [] (dest ++ w.dirs)) budget tree)
      (forEach (fun s i => itemCalls repr f [] dest s (w.item i)) budget tree) :=
    forEach_alike fun i hi s => w.alike_itemCalls hi (hkept i hi) dest s
  have h := halike.ended
  rw [(hbased _).ended, ← (hbased dest).ended] at h
  rw [forEach_around]
  exact h

/-- Unpacking the wrapped tree comes to unpacking the tree under the directories, unless nothing
of it is unpacked. -/
theorem run_around (repr : Name → String) (budget : ℤ) (hkept : ∀ i ∈ tree, parts (joined i.path) ≠ some []) (hstands : Stands d dest)
    (hfresh : Fresh d dest) :
    ∃ d₂, Opened d (dest ++ w.dirs) d₂ ∧
      (run [] (forEach (itemCalls repr f [] []) budget tree).ops = some [] ∧
          run d (forEach (itemCalls repr f [] dest) budget (w.around tree)).ops ≠ none ∨
        run d (forEach (itemCalls repr f [] dest) budget (w.around tree)).ops =
          (run [] (forEach (itemCalls repr f [] []) budget tree).ops).map
            fun t => graft (dest ++ w.dirs) t d₂) := by
  have hparents : ∀ p ∈ w.parents.map Subtype.val, p <+: w.dirs := by
    intro p hp
    obtain ⟨q, -, rfl⟩ := List.mem_map.mp hp
    exact q.2.2
  obtain ⟨d₁, d₂, hrun₁, hrun₂, hopened⟩ := exists_opened hstands hfresh hparents
  rw [List.flatMap_map] at hrun₁
  have hbased : Based (dest ++ w.dirs) (forEach (itemCalls repr f [] (dest ++ w.dirs)) budget tree)
      (forEach (itemCalls repr f [] []) budget tree) :=
    based_forEach fun i _ s => based_itemCalls f [] _ s i
  have halike : AlikeCalls repr tree (memberName f []) (memberName f [] ∘ w.item)
      (forEach (itemCalls repr f [] (dest ++ w.dirs)) budget tree)
      (forEach (fun s i => itemCalls repr f [] dest s (w.item i)) budget tree) :=
    forEach_alike fun i hi s => w.alike_itemCalls hi (hkept i hi) dest s
  have hstands₂ := stands_of_opened hopened
  have hsecond := hbased.run_eq d₂ [] hstands₂ (fresh_of_opened hopened hfresh) rfl
  refine ⟨d₂, hopened, ?_⟩
  rw [forEach_around, Calls.after, run_append, hrun₁, Option.bind_some, ← halike.ops]
  rcases hbased.starts with hnil | ⟨rest, hrest⟩
  · left
    rw [hnil] at hsecond ⊢
    refine ⟨?_, by simp⟩
    obtain ⟨t, ht, hgraft⟩ := Option.map_eq_some_iff.mp hsecond.symm
    have hempty : t = [] := by simpa [graft] using hgraft
    rw [ht, hempty]
  · right
    rw [← hsecond, ← hrest, run_append, run_append, hrun₂]
    exact congrArg (Option.bind · _) (run_makedirs_of_stands hstands₂).symm

variable {V : Type} {validate : Disk Name → Name → V} {valid : V → Bool} {form : Form}
  {models : Models}

theorem alike_around (hkept : ∀ i ∈ tree, parts (joined i.path) ≠ some [])
    (htree : looksLikeModelDir (diskOf tree) [] = true) (hstands : Stands d dest)
    (hfresh : Fresh d dest) (hname : form.name ≠ []) (limit : ℕ) :
    AlikeOutcomes repr tree (memberName f []) (memberName f [] ∘ w.item)
      (installArchive repr validate valid limit d dest form models (archiveOf f [] tree))
      (installArchive repr validate valid limit d dest form models
        (archiveOf f [] (w.around tree))) := by
  obtain ⟨d₂, hopened, hrun⟩ := run_around w repr limit hkept hstands hfresh
  have hbased : Based dest (forEach (itemCalls repr f [] dest) (limit : ℤ) tree)
      (forEach (itemCalls repr f [] []) (limit : ℤ) tree) :=
    based_forEach fun i _ s => based_itemCalls f [] dest s i
  have hplain : run d (forEach (itemCalls repr f [] dest) (limit : ℤ) tree).ops =
      (run [] (forEach (itemCalls repr f [] []) (limit : ℤ) tree).ops).map
        fun t => graft dest t d :=
    hbased.run_eq d [] hstands hfresh rfl
  rw [installArchive, installArchive, extract_archiveOf, extract_archiveOf]
  refine alike_installExtracted (ended_around w hkept) ?_ ?_
  · rw [hplain, Option.map_eq_none_iff]
    rcases hrun with ⟨hempty, hsome⟩ | hrun
    · simp [hempty, hsome]
    · rw [hrun, Option.map_eq_none_iff]
  · intro left d' d'' hok hd' hd''
    rw [hbased.ended] at hok
    rw [hplain] at hd'
    obtain ⟨t, ht, rfl⟩ := Option.map_eq_some_iff.mp hd'
    have hroot : t.get? [] = none := get?_root_of_run hbased.proper rfl ht
    have hlooks := looksLikeModelDir_extracted htree hok ht
    have hresolve : resolveModelRoot (graft dest t d) 5 dest = dest :=
      resolveModelRoot_of_looksLike 5 (by rwa [looksLikeModelDir_graft hfresh])
    rcases hrun with ⟨hempty, -⟩ | hrun
    · rw [ht] at hempty
      obtain rfl := Option.some.inj hempty
      cases hlooks
    rw [hrun, ht] at hd''
    obtain rfl := Option.some.inj hd''
    have hfresh₂ := fresh_of_opened hopened hfresh
    have hresolve₂ : resolveModelRoot (graft (dest ++ w.dirs) t d₂) 5 dest = dest ++ w.dirs := by
      have hchain := chain_of_opened hopened hfresh w.wraps hroot
      have hdepth : w.dirs.length ≤ 5 := w.depth.trans (by omega)
      have hat : dest ++ [] ++ w.dirs = dest ++ w.dirs := by rw [List.append_nil]
      have hlooks₂ : looksLikeModelDir (graft (dest ++ w.dirs) t d₂) (dest ++ [] ++ w.dirs) = true := by
        rwa [hat, looksLikeModelDir_graft hfresh₂]
      have h : resolveModelRoot (graft (dest ++ w.dirs) t d₂) 5 (dest ++ []) =
          dest ++ [] ++ w.dirs := resolveModelRoot_chain hchain hlooks₂ hdepth
      rwa [hat, List.append_nil] at h
    rw [installExtracted_some hname (t := t), installExtracted_some hname (t := t)]
    · rw [hresolve₂, subtree_graft hroot hfresh₂]
    · rw [hresolve, subtree_graft hroot hfresh]

end Wrapped

/-- However an archive names a model's tree, with the names as they are, with `./` before each or
with up to four directories around the tree, it installs the same or is refused the same. One
with a member for the directory itself is refused. -/
theorem installArchive_forms (repr : Name → String) {V : Type} (validate : Disk Name → Name → V)
    (valid : V → Bool) (limit : ℕ) (d : Disk Name) (extractTo : List Name) (form : Form)
    (models : Models) (f : Format) (tree : List Item) (hstands : Stands d extractTo)
    (hfresh : Fresh d extractTo) (hname : form.name ≠ [])
    (hkept : ∀ i ∈ tree, parts (joined i.path) ≠ some [])
    (htree : looksLikeModelDir (diskOf tree) [] = true) :
    let outcome := installArchive repr validate valid limit d extractTo form models
    AlikeOutcomes repr tree (memberName f []) (memberName f "./".toList)
      (outcome (archiveOf f [] tree)) (outcome (archiveOf f "./".toList tree)) ∧
    (∀ w : Wrapping f, AlikeOutcomes repr tree (memberName f []) (memberName f [] ∘ w.item)
      (outcome (archiveOf f [] tree)) (outcome (archiveOf f [] (w.around tree)))) ∧
    outcome (withOwn (archiveOf f "./".toList tree)) =
      .error (.refused ("Unsafe path in archive: " ++ repr (ownName f))) := by
  dsimp only
  refine ⟨?_, ?_, ?_⟩
  · have halike : AlikeCalls repr tree (memberName f []) (memberName f "./".toList)
        (forEach (itemCalls repr f [] extractTo) (limit : ℤ) tree)
        (forEach (itemCalls repr f "./".toList extractTo) (limit : ℤ) tree) :=
      forEach_alike fun i hi s => alike_dotted hi (hkept i hi) extractTo s
    rw [installArchive, installArchive, extract_archiveOf, extract_archiveOf]
    refine alike_installExtracted halike.ended (by rw [halike.ops]) ?_
    intro left d' d'' hok hd' hd''
    rw [halike.ops, hd''] at hd'
    rw [Option.some.inj hd']
  · exact fun w => alike_around w hkept htree hstands hfresh hname limit
  · cases f with
    | zip => rfl
    | tar => rfl

/-- A model of one version, with an empty configuration. -/
def onnxModel : List Item :=
  [⟨["config.pbtxt".toList], some [], by decide, by decide⟩,
    ⟨["1".toList], none, by decide, by decide⟩,
    ⟨["1".toList, "model.onnx".toList], some [[8]], by decide, by decide⟩]

def onnxForm : Form := ⟨"upload".toList, "resnet".toList, false⟩

/-- What becomes of it in an empty repository, where validation finds no error. -/
def onnxOutcome (archive : Archive) : Except (Failed (List String)) (Installed (List String) × Models) :=
  installArchive quote (fun _ _ => []) List.isEmpty 4096 staged ["stage".toList] onnxForm [] archive

def released (f : Format) : Wrapping f where
  dirs := ["release".toList, "resnet".toList]
  ne := by decide
  depth := by decide
  wraps := by
    intro w hw
    rcases List.mem_cons.mp hw with rfl | hw
    · exact ⟨by decide, by decide, by decide, fun _ => by decide⟩
    · obtain rfl := List.mem_singleton.mp hw
      exact ⟨by decide, by decide, by decide, fun _ => by decide⟩
  parents := [⟨["release".toList], by decide, by decide⟩]

theorem installArchive_forms_onnx :
    AlikeOutcomes quote onnxModel (memberName .tar []) (memberName .tar [] ∘ (released .tar).item)
      (onnxOutcome (archiveOf .tar [] onnxModel))
      (onnxOutcome (archiveOf .tar [] ((released .tar).around onnxModel))) ∧
    (onnxOutcome (archiveOf .tar [] onnxModel)).toOption.isSome = true := by
  obtain ⟨-, hwrapped, -⟩ := installArchive_forms quote (fun _ _ => ([] : List String)) List.isEmpty
    4096 staged ["stage".toList] onnxForm [] .tar onnxModel stands_staged fresh_staged (by decide)
    (by decide) (by decide)
  exact ⟨hwrapped (released .tar), by rfl⟩

/-- An archive as `tar -C dir -cf x.tar .` makes it is refused, with the model as good. -/
theorem not_installed_with_own :
    (onnxOutcome (archiveOf .tar [] onnxModel)).toOption.isSome = true ∧
      onnxOutcome (withOwn (archiveOf .tar "./".toList onnxModel)) =
        .error (.refused "Unsafe path in archive: '.'") := by
  exact ⟨by rfl, by rfl⟩

end PurdueAF.ModelUploads

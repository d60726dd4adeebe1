import PurdueAF.Dict

/-!
# Dictionaries with a default

A loop that changes `d[key]` of a `defaultdict` for each of its elements, as one fold: what is
at a key afterwards is what the elements of that key make of it, in their order.
-/
namespace PurdueAF.Dict

variable {κ β ε : Type*} [DecidableEq κ] (zero : β)

/-- `d[k]` changed in place, from `zero` where there is none. -/
def upsert (d : Dict κ β) (k : κ) (f : β → β) : Dict κ β := d.set k (f ((d.get? k).getD zero))

def upsertAll (key : ε → κ) (act : ε → β → β) (d : Dict κ β) (es : List ε) : Dict κ β :=
  es.foldl (fun d e => upsert zero d (key e) (act e)) d

theorem nodup_upsertAll (key : ε → κ) (act : ε → β → β) {d : Dict κ β}
    (h : (d.map Prod.fst).Nodup) (es : List ε) :
    ((upsertAll zero key act d es).map Prod.fst).Nodup := by
  induction es generalizing d with
  | nil => exact h
  | cons e es ih => exact ih (nodup_set h _ _)

theorem getD_upsertAll (key : ε → κ) (act : ε → β → β) (d : Dict κ β) (es : List ε) (k : κ) :
    ((upsertAll zero key act d es).get? k).getD zero =
      (es.filter fun e => key e = k).foldl (fun b e => act e b) ((d.get? k).getD zero) := by
  induction es generalizing d with
  | nil => rfl
  | cons e es ih =>
    have hstep : upsertAll zero key act d (e :: es) =
        upsertAll zero key act (upsert zero d (key e) (act e)) es := rfl
    rw [hstep, ih, upsert, get?_set]
    by_cases hk : key e = k
    · subst hk
      simp
    · simp [hk, Ne.symm hk]

theorem get?_upsertAll_eq_none (key : ε → κ) (act : ε → β → β) (d : Dict κ β) (es : List ε)
    (k : κ) :
    (upsertAll zero key act d es).get? k = none ↔ d.get? k = none ∧ ∀ e ∈ es, key e ≠ k := by
  induction es generalizing d with
  | nil => simp [upsertAll]
  | cons e es ih =>
    have hstep : upsertAll zero key act d (e :: es) =
        upsertAll zero key act (upsert zero d (key e) (act e)) es := rfl
    rw [hstep, ih, upsert, get?_set]
    by_cases hk : k = key e
    · simp [hk]
    · simp [hk, Ne.symm hk]

/-- `collections.Counter`. -/
def counter (keys : List κ) : Dict κ ℕ := upsertAll 0 id (fun _ n => n + 1) [] keys

theorem getD_counter (keys : List κ) (k : κ) : ((counter keys).get? k).getD 0 = keys.count k := by
  have hfold (l : List κ) (n : ℕ) : l.foldl (fun n _ => n + 1) n = n + l.length := by
    induction l generalizing n with
    | nil => rfl
    | cons a l ih => rw [List.foldl_cons, ih, List.length_cons]; omega
  rw [counter, getD_upsertAll, hfold, List.count_eq_length_filter]
  simp [beq_eq_decide]

/-- What a loop keeps of a list, stored under its name. -/
def storeKept (name : ε → κ) (keep : ε → Bool) (d : Dict κ ε) (l : List ε) : Dict κ ε :=
  l.foldl (fun d a => if keep a then d.set (name a) a else d) d

/-- What no other shares a name or a mark with, by name. -/
def unshared (name mark : ε → κ) (found : List ε) : Dict κ ε :=
  let names := counter (found.map name)
  let marks := counter (found.map mark)
  storeKept name (fun a =>
    !(1 < (names.get? (name a)).getD 0 || 1 < (marks.get? (mark a)).getD 0)) [] found

section Unshared

variable {name mark : ε → κ} {found : List ε} {a b : ε}

/-- In a list once, and no other element has its name or its mark. -/
def Alone (name mark : ε → κ) (found : List ε) (a : ε) : Prop :=
  ∃ before after, found = before ++ a :: after ∧
    ∀ b ∈ before ++ after, name b ≠ name a ∧ mark b ≠ mark a

theorem count_map_split (key : ε → κ) (before after : List ε) (a : ε) :
    ((before ++ a :: after).map key).count (key a) ≤ 1 ↔
      ∀ b ∈ before ++ after, key b ≠ key a := by
  have hcount : ((before ++ a :: after).map key).count (key a) =
      ((before ++ after).map key).count (key a) + 1 := by
    simp only [List.map_append, List.map_cons, List.count_append, List.count_cons_self]
    omega
  have hzero : ((before ++ after).map key).count (key a) = 0 ↔
      ∀ b ∈ before ++ after, key b ≠ key a := by
    rw [List.count_eq_zero, List.mem_map]
    push Not
    rfl
  rw [hcount, ← hzero]
  omega

theorem alone_iff : Alone name mark found a ↔
    a ∈ found ∧ (found.map name).count (name a) ≤ 1 ∧ (found.map mark).count (mark a) ≤ 1 := by
  constructor
  · rintro ⟨before, after, rfl, hothers⟩
    exact ⟨by simp, (count_map_split name before after a).mpr fun b hb => (hothers b hb).1,
      (count_map_split mark before after a).mpr fun b hb => (hothers b hb).2⟩
  · rintro ⟨hmem, hname, hmark⟩
    obtain ⟨before, after, rfl⟩ := List.append_of_mem hmem
    exact ⟨before, after, rfl, fun b hb => ⟨(count_map_split name before after a).mp hname b hb,
      (count_map_split mark before after a).mp hmark b hb⟩⟩

theorem Alone.mem (h : Alone name mark found a) : a ∈ found := (alone_iff.mp h).1

theorem alone_congr_perm {found' : List ε} (h : found.Perm found') :
    Alone name mark found a ↔ Alone name mark found' a := by
  rw [alone_iff, alone_iff, h.mem_iff, (h.map name).count_eq, (h.map mark).count_eq]

omit [DecidableEq κ] in
/-- Who has the name or the mark of one alone is that one. -/
theorem Alone.eq_of (h : Alone name mark found a) (hb : b ∈ found)
    (hshared : name b = name a ∨ mark b = mark a) : b = a := by
  obtain ⟨before, after, rfl, hothers⟩ := h
  by_contra hne
  have hmem : b ∈ before ++ after := by
    rcases List.mem_append.mp hb with hb | hb
    · exact List.mem_append_left _ hb
    · exact List.mem_append_right _ ((List.mem_cons.mp hb).resolve_left hne)
  rcases hshared with hname | hmark
  · exact (hothers b hmem).1 hname
  · exact (hothers b hmem).2 hmark

theorem storeKept_cons (name : ε → κ) (keep : ε → Bool) (d : Dict κ ε) (b : ε) (l : List ε) :
    storeKept name keep d (b :: l) =
      storeKept name keep (if keep b then d.set (name b) b else d) l := rfl

/-- What is kept is found under its name, if nothing else of the name is kept. -/
theorem get?_storeKept {keep : ε → Bool} {l : List ε} {d : Dict κ ε} {k : κ}
    (hone : ∀ b ∈ l, keep b → name b = k → b = a)
    (h : d.get? k = some a ∨ a ∈ l ∧ keep a ∧ name a = k) :
    (storeKept name keep d l).get? k = some a := by
  induction l generalizing d with
  | nil =>
    rcases h with h | ⟨h, -⟩
    · exact h
    · cases h
  | cons b l ih =>
    rw [storeKept_cons]
    refine ih (fun c hc => hone c (by simp [hc])) ?_
    by_cases hk : keep b ∧ name b = k
    · obtain rfl := hone b (by simp) hk.1 hk.2
      rw [if_pos hk.1, ← hk.2]
      exact .inl (get?_set_self _ _ _)
    · have hsame : (if keep b then d.set (name b) b else d).get? k = d.get? k := by
        split_ifs with hb
        · exact get?_set_ne d b fun heq => hk ⟨hb, heq.symm⟩
        · rfl
      rw [hsame]
      refine h.imp_right ?_
      rintro ⟨hmem, hkeep, hname⟩
      refine ⟨?_, hkeep, hname⟩
      rcases List.mem_cons.mp hmem with rfl | hmem
      · exact absurd ⟨hkeep, hname⟩ hk
      · exact hmem

theorem mem_of_get?_storeKept {keep : ε → Bool} {l : List ε} {d : Dict κ ε} {k : κ}
    (h : (storeKept name keep d l).get? k = some a) :
    d.get? k = some a ∨ a ∈ l ∧ keep a ∧ name a = k := by
  induction l generalizing d with
  | nil => exact .inl h
  | cons b l ih =>
    rw [storeKept_cons] at h
    rcases ih h with hd | ⟨hmem, hkeep, hname⟩
    · split_ifs at hd with hb
      · rw [get?_set] at hd
        split_ifs at hd with hk
        · obtain rfl := Option.some.inj hd
          exact .inr ⟨by simp, hb, hk.symm⟩
        · exact .inl hd
      · exact .inl hd
    · exact .inr ⟨by simp [hmem], hkeep, hname⟩

theorem nodup_storeKept {keep : ε → Bool} {d : Dict κ ε} (h : (d.map Prod.fst).Nodup)
    (l : List ε) : ((storeKept name keep d l).map Prod.fst).Nodup := by
  induction l generalizing d with
  | nil => exact h
  | cons b l ih =>
    rw [storeKept_cons]
    refine ih ?_
    split_ifs
    · exact nodup_set h _ _
    · exact h

theorem get?_unshared {k : κ} :
    (unshared name mark found).get? k = some a ↔ Alone name mark found a ∧ name a = k := by
  have hkeep (b : ε) : (!(1 < ((counter (found.map name)).get? (name b)).getD 0 ||
      1 < ((counter (found.map mark)).get? (mark b)).getD 0)) = true ↔
      (found.map name).count (name b) ≤ 1 ∧ (found.map mark).count (mark b) ≤ 1 := by
    rw [getD_counter, getD_counter]
    simp
  rw [unshared]
  constructor
  · intro h
    rcases mem_of_get?_storeKept h with hnil | ⟨hmem, hkept, hname⟩
    · cases hnil
    · exact ⟨alone_iff.mpr ⟨hmem, (hkeep a).mp hkept⟩, hname⟩
  · rintro ⟨halone, hname⟩
    obtain ⟨hmem, hcounts⟩ := alone_iff.mp halone
    refine get?_storeKept (fun b hb _ hb' => ?_) (.inr ⟨hmem, (hkeep a).mpr hcounts, hname⟩)
    exact halone.eq_of hb (.inl (hb'.trans hname.symm))

theorem nodup_unshared (name mark : ε → κ) (found : List ε) :
    ((unshared name mark found).map Prod.fst).Nodup := nodup_storeKept (by simp) found

/-- Alone among what a list gives: one element of it gives it, and no other gives anything of
its name or its mark. -/
theorem alone_filterMap {δ : Type*} {f : δ → Option ε} {l : List δ} :
    Alone name mark (l.filterMap f) a ↔ ∃ before d after, l = before ++ d :: after ∧ f d = some a ∧
      ∀ e ∈ before ++ after, ∀ b, f e = some b → name b ≠ name a ∧ mark b ≠ mark a := by
  constructor
  · intro h
    obtain ⟨hmem, hname, hmark⟩ := alone_iff.mp h
    obtain ⟨d, hd, hfd⟩ := List.mem_filterMap.mp hmem
    obtain ⟨before, after, rfl⟩ := List.append_of_mem hd
    rw [List.filterMap_append, List.filterMap_cons_some hfd] at hname hmark
    refine ⟨before, d, after, rfl, hfd, fun e he b hb => ?_⟩
    have hgiven : b ∈ before.filterMap f ++ after.filterMap f := by
      rw [← List.filterMap_append]
      exact List.mem_filterMap.mpr ⟨e, he, hb⟩
    exact ⟨(count_map_split name _ _ a).mp hname b hgiven,
      (count_map_split mark _ _ a).mp hmark b hgiven⟩
  · rintro ⟨before, d, after, rfl, hfd, hothers⟩
    refine ⟨before.filterMap f, after.filterMap f, ?_, fun b hb => ?_⟩
    · rw [List.filterMap_append, List.filterMap_cons_some hfd]
    · rw [← List.filterMap_append] at hb
      obtain ⟨e, he, hfe⟩ := List.mem_filterMap.mp hb
      exact hothers e he b hfe

theorem get?_unshared_congr_perm {found' : List ε} (h : found.Perm found') (k : κ) :
    (unshared name mark found).get? k = (unshared name mark found').get? k := by
  refine Option.ext fun a => ?_
  rw [get?_unshared, get?_unshared, alone_congr_perm h]

theorem map_set {δ : Type*} (f : δ → ε) (d : Dict κ δ) (k : κ) (v : δ) :
    (d.set k v).map (fun e => (e.1, f e.2)) = set (d.map fun e => (e.1, f e.2)) k (f v) := by
  simp [set, pop, List.filter_map, Function.comp_def]

theorem map_storeKept {δ : Type*} (f : δ → ε) (keep : ε → Bool) (d : Dict κ δ) (l : List δ) :
    (storeKept (name ∘ f) (keep ∘ f) d l).map (fun e => (e.1, f e.2)) =
      storeKept name keep (d.map fun e => (e.1, f e.2)) (l.map f) := by
  induction l generalizing d with
  | nil => rfl
  | cons b l ih =>
    rw [storeKept_cons, ih, List.map_cons, storeKept_cons]
    simp only [Function.comp_apply]
    split_ifs
    · rw [map_set]
    · rfl

/-- Read through a map that gives the names and the marks, a list keeps the same. -/
theorem map_unshared {δ : Type*} (f : δ → ε) (found : List δ) :
    (unshared (name ∘ f) (mark ∘ f) found).map (fun e => (e.1, f e.2)) =
      unshared name mark (found.map f) := by
  simp only [unshared, List.map_map]
  exact map_storeKept f (fun a =>
    !(1 < ((counter (found.map (name ∘ f))).get? (name a)).getD 0 ||
      1 < ((counter (found.map (mark ∘ f))).get? (mark a)).getD 0)) [] found

end Unshared

end PurdueAF.Dict

import Mathlib.Algebra.BigOperators.Group.Finset.Basic
import Mathlib.Algebra.GroupWithZero.Nat
import Mathlib.Algebra.Order.BigOperators.Group.Finset

/-!
# Dictionaries as association lists

`set` drops an older entry of its key and `pop` every entry of it, so a table
built from the empty one has one entry a key. Sums over the entries bound sums
over any finite set of keys.
-/
namespace PurdueAF

abbrev Dict (κ β : Type*) := List (κ × β)

namespace Dict
variable {κ β : Type*}

/-- What the entries weigh together. -/
def total (f : β → ℕ) (d : Dict κ β) : ℕ := (d.map fun e => f e.2).sum

@[simp] theorem total_nil (f : β → ℕ) : total f ([] : Dict κ β) = 0 := rfl

@[simp] theorem total_cons (f : β → ℕ) (e : κ × β) (d : Dict κ β) :
    total f (e :: d) = f e.2 + total f d := by simp [total]

theorem total_filter_le (f : β → ℕ) (d : Dict κ β) (p : κ × β → Bool) :
    total f (List.filter p d) ≤ total f d := by
  induction d with
  | nil => simp
  | cons e d ih =>
    rw [List.filter_cons]
    split_ifs
    · simpa using ih
    · rw [total_cons]
      omega

variable [DecidableEq κ]

def get? (d : Dict κ β) (k : κ) : Option β := List.lookup k d

def pop (d : Dict κ β) (k : κ) : Dict κ β := List.filter (fun e => e.1 ≠ k) d

def set (d : Dict κ β) (k : κ) (v : β) : Dict κ β := (k, v) :: d.pop k

/-- A comprehension over pairs: the last pair of a key stays. -/
def ofPairs (pairs : List (κ × β)) : Dict κ β := pairs.foldl (fun d e => d.set e.1 e.2) []

/-- The entries of `later`, and those of `d` whose key it lacks. -/
def overlay (d later : Dict κ β) : Dict κ β :=
  later ++ List.filter (fun e => (later.get? e.1).isNone) d

@[simp] theorem get?_nil (k : κ) : get? ([] : Dict κ β) k = none := rfl

theorem get?_cons (k : κ) (e : κ × β) (d : Dict κ β) :
    get? (e :: d) k = if k = e.1 then some e.2 else get? d k := by
  obtain ⟨k', v⟩ := e
  by_cases h : k = k'
  · simp [get?, h]
  · have hb : (k == k') = false := by simpa using h
    simp [get?, List.lookup_cons, hb, h]

theorem get?_pop (d : Dict κ β) (k j : κ) :
    (d.pop k).get? j = if j = k then none else d.get? j := by
  induction d with
  | nil => simp [pop]
  | cons e d ih =>
    have hp : pop (e :: d) k = if e.1 = k then pop d k else e :: pop d k := by
      by_cases h : e.1 = k <;> simp [pop, h]
    rw [hp]
    by_cases h : e.1 = k
    · rw [if_pos h, ih, get?_cons, h]
      split_ifs <;> rfl
    · rw [if_neg h, get?_cons, get?_cons, ih]
      by_cases hj : j = e.1
      · simp [hj, h]
      · simp [hj]

@[simp] theorem get?_pop_self (d : Dict κ β) (k : κ) : (d.pop k).get? k = none := by
  simp [get?_pop]

theorem get?_pop_ne (d : Dict κ β) {k j : κ} (h : j ≠ k) : (d.pop k).get? j = d.get? j := by
  simp [get?_pop, h]

theorem pop_of_get?_none {d : Dict κ β} {k : κ} (h : d.get? k = none) : d.pop k = d := by
  apply List.filter_eq_self.mpr
  intro e he
  simp only [ne_eq, decide_not, Bool.not_eq_true', decide_eq_false_iff_not]
  rintro rfl
  simpa using List.lookup_eq_none_iff.mp h e he

theorem get?_set (d : Dict κ β) (k j : κ) (v : β) :
    (d.set k v).get? j = if j = k then some v else d.get? j := by
  rw [set, get?_cons, get?_pop]
  split_ifs <;> rfl

@[simp] theorem get?_set_self (d : Dict κ β) (k : κ) (v : β) : (d.set k v).get? k = some v := by
  simp [get?_set]

theorem get?_set_ne (d : Dict κ β) {k j : κ} (v : β) (h : j ≠ k) :
    (d.set k v).get? j = d.get? j := by
  simp [get?_set, h]

theorem get?_append (d e : Dict κ β) (k : κ) :
    get? (d ++ e) k = (get? d k).or (get? e k) := by
  induction d with
  | nil => simp
  | cons x d ih =>
    rw [List.cons_append, get?_cons, get?_cons, ih]
    split_ifs <;> simp

theorem get?_map {γ : Type*} (d : Dict κ β) (g : β → γ) (k : κ) :
    get? (d.map fun e => (e.1, g e.2)) k = (d.get? k).map g := by
  induction d with
  | nil => rfl
  | cons e d ih =>
    rw [List.map_cons, get?_cons, get?_cons, ih]
    split_ifs <;> rfl

theorem get?_filter_key (d : Dict κ β) (p : κ → Bool) (k : κ) :
    get? (List.filter (fun e => p e.1) d) k = if p k then get? d k else none := by
  induction d with
  | nil => simp
  | cons e d ih =>
    rw [List.filter_cons]
    by_cases hp : p e.1
    · rw [if_pos hp, get?_cons, get?_cons, ih]
      by_cases hk : k = e.1
      · simp [hk, hp]
      · simp [hk]
    · rw [if_neg hp, ih, get?_cons]
      by_cases hk : k = e.1
      · simp [hk, hp]
      · simp [hk]

/-- A key whose entry stays keeps it. -/
theorem get?_filter_of_kept {d : Dict κ β} {p : κ × β → Bool} {k : κ} {v : β}
    (h : d.get? k = some v) (hp : p (k, v) = true) : get? (List.filter p d) k = some v := by
  induction d with
  | nil => simp at h
  | cons e d ih =>
    rw [get?_cons] at h
    rw [List.filter_cons]
    by_cases hk : k = e.1
    · rw [if_pos hk] at h
      obtain rfl := Option.some.inj h
      have hkept : p e = true := by rwa [hk] at hp
      rw [if_pos hkept, get?_cons, if_pos hk]
    · rw [if_neg hk] at h
      split_ifs
      · rw [get?_cons, if_neg hk]
        exact ih h
      · exact ih h

theorem get?_overlay (d later : Dict κ β) (k : κ) :
    (overlay d later).get? k = (later.get? k).or (d.get? k) := by
  have hf := get?_filter_key d (fun j => (later.get? j).isNone) k
  rw [overlay, get?_append, hf]
  cases later.get? k <;> simp

/-- A loop that drops entries drops those that one of its items hits. -/
theorem get?_foldl_drop {α : Type*} {f : Dict κ β → α → Dict κ β}
    {hits : α → κ → Bool}
    (hf : ∀ d x k, (f d x).get? k = if hits x k then none else d.get? k) (items : List α)
    (d : Dict κ β) (k : κ) :
    (items.foldl f d).get? k = if items.any (hits · k) then none else d.get? k := by
  induction items generalizing d with
  | nil => simp
  | cons x items ih =>
    rw [List.foldl_cons, ih, hf, List.any_cons]
    cases hits x k <;> simp

theorem mem_of_get? {d : Dict κ β} {k : κ} {v : β} (h : d.get? k = some v) : (k, v) ∈ d := by
  induction d with
  | nil => simp at h
  | cons e d ih =>
    rw [get?_cons] at h
    split_ifs at h with hk
    · obtain ⟨k', v'⟩ := e
      simp_all
    · exact List.mem_cons_of_mem _ (ih h)

theorem mem_pop {d : Dict κ β} {k : κ} {e : κ × β} : e ∈ d.pop k ↔ e ∈ d ∧ e.1 ≠ k := by
  simp [pop]

theorem mem_set {d : Dict κ β} {k : κ} {v : β} {e : κ × β} :
    e ∈ d.set k v ↔ e = (k, v) ∨ e ∈ d ∧ e.1 ≠ k := by
  simp [set, mem_pop]

theorem get?_eq_none_iff {d : Dict κ β} {k : κ} : d.get? k = none ↔ k ∉ d.map Prod.fst := by
  rw [get?, List.lookup_eq_none_iff]
  simp only [List.mem_map, not_exists, not_and, bne_iff_ne]
  exact ⟨fun h e he heq => h e he heq.symm, fun h e he heq => h e he heq.symm⟩

theorem get?_ne_none_of_mem {d : Dict κ β} {k : κ} {v : β} (h : (k, v) ∈ d) :
    d.get? k ≠ none := by
  intro hn
  exact get?_eq_none_iff.mp hn (List.mem_map_of_mem (f := Prod.fst) h)

theorem nodup_set {d : Dict κ β} (h : (d.map Prod.fst).Nodup) (k : κ) (v : β) :
    ((d.set k v).map Prod.fst).Nodup := by
  have hfresh : k ∉ (d.pop k).map Prod.fst := by
    intro hk
    obtain ⟨e, he, rfl⟩ := List.mem_map.mp hk
    exact (mem_pop.mp he).2 rfl
  have hpop : ((d.pop k).map Prod.fst).Nodup := h.sublist ((List.filter_sublist).map _)
  exact List.nodup_cons.mpr ⟨hfresh, hpop⟩

theorem ofPairs_append_singleton (pairs : List (κ × β)) (e : κ × β) :
    ofPairs (pairs ++ [e]) = (ofPairs pairs).set e.1 e.2 := by
  simp [ofPairs, List.foldl_append]

theorem mem_of_get?_ofPairs {pairs : List (κ × β)} {k : κ} {v : β}
    (h : (ofPairs pairs).get? k = some v) : (k, v) ∈ pairs := by
  induction pairs using List.reverseRecOn with
  | nil => simp [ofPairs] at h
  | append_singleton pairs e ih =>
    rw [ofPairs_append_singleton, get?_set] at h
    split_ifs at h with hk
    · obtain ⟨k', v'⟩ := e
      simp_all
    · exact List.mem_append_left _ (ih h)

theorem get?_of_mem {d : Dict κ β} (hn : (d.map Prod.fst).Nodup) {k : κ} {v : β}
    (h : (k, v) ∈ d) : d.get? k = some v := by
  induction d with
  | nil => cases h
  | cons e d ih =>
    rw [List.map_cons, List.nodup_cons] at hn
    rw [get?_cons]
    rcases List.mem_cons.mp h with rfl | h
    · exact if_pos rfl
    · have hne : k ≠ e.1 := fun heq => hn.1 (heq ▸ List.mem_map_of_mem (f := Prod.fst) h)
      rw [if_neg hne]
      exact ih hn.2 h

theorem mem_iff_get? {d : Dict κ β} (hn : (d.map Prod.fst).Nodup) {e : κ × β} :
    e ∈ d ↔ d.get? e.1 = some e.2 :=
  ⟨get?_of_mem hn, mem_of_get?⟩

theorem get?_filter {d : Dict κ β} (hn : (d.map Prod.fst).Nodup) (p : κ × β → Bool) (k : κ) :
    get? (List.filter p d) k = (d.get? k).filter fun v => p (k, v) := by
  have hn' : ((List.filter p d).map Prod.fst).Nodup := hn.sublist (List.filter_sublist.map _)
  ext v
  rw [← mem_iff_get? hn' (e := (k, v)), List.mem_filter, Option.filter_eq_some_iff,
    mem_iff_get? hn]

/-- With one pair a key, a comprehension finds each of them. -/
theorem get?_ofPairs_of_mem {pairs : List (κ × β)} (hn : (pairs.map Prod.fst).Nodup)
    {k : κ} {v : β} (h : (k, v) ∈ pairs) : (ofPairs pairs).get? k = some v := by
  induction pairs using List.reverseRecOn with
  | nil => simp at h
  | append_singleton pairs e ih =>
    rw [ofPairs_append_singleton, get?_set]
    rw [List.map_append, List.nodup_append] at hn
    obtain ⟨hn, -, hd⟩ := hn
    rcases List.mem_append.mp h with h | h
    · have hne : k ≠ e.1 := hd k (List.mem_map_of_mem (f := Prod.fst) h) e.1 (by simp)
      rw [if_neg hne]
      exact ih hn h
    · obtain rfl : (k, v) = e := by simpa using h
      simp

theorem total_set (f : β → ℕ) (d : Dict κ β) (k : κ) (v : β) :
    total f (d.set k v) = f v + total f (d.pop k) := by simp [set]

theorem total_pop_le (f : β → ℕ) (d : Dict κ β) (k : κ) : total f (d.pop k) ≤ total f d :=
  total_filter_le f d _

theorem get?_add_total_pop_le (f : β → ℕ) (d : Dict κ β) (k : κ) :
    ((d.get? k).elim 0 f) + total f (d.pop k) ≤ total f d := by
  induction d with
  | nil => simp [pop]
  | cons e d ih =>
    rw [get?_cons, total_cons]
    by_cases h : k = e.1
    · subst h
      have hp : pop (e :: d) e.1 = pop d e.1 := by simp [pop]
      have := total_pop_le f d e.1
      simp only [if_true, Option.elim_some, hp]
      omega
    · have hp : pop (e :: d) k = e :: pop d k := by simp [pop, Ne.symm h]
      simp only [h, if_false, hp, total_cons]
      omega

/-- Distinct keys find distinct entries. -/
theorem sum_get?_le_total (f : β → ℕ) (d : Dict κ β) (s : Finset κ) :
    ∑ k ∈ s, (d.get? k).elim 0 f ≤ total f d := by
  induction s using Finset.induction_on generalizing d with
  | empty => simp
  | insert k s hk ih =>
    rw [Finset.sum_insert hk]
    have hs : ∑ j ∈ s, (d.get? j).elim 0 f = ∑ j ∈ s, ((d.pop k).get? j).elim 0 f := by
      apply Finset.sum_congr rfl
      intro j hj
      rw [get?_pop_ne d (by rintro rfl; exact hk hj)]
    have hle := ih (d.pop k)
    have htot := get?_add_total_pop_le f d k
    omega

end Dict
end PurdueAF

import Mathlib.Algebra.BigOperators.Group.List.Basic
import Mathlib.Algebra.GroupWithZero.Nat
import Mathlib.Data.List.Nodup

/-!
# Spreading an amount over places in order

Each place takes what is left up to its capacity. Together the places take all there is room for,
and one takes something only after those before it are full.
-/
namespace PurdueAF.Greedy
variable {α : Type*} (cap : α → ℕ)

def spread : ℕ → List α → List (α × ℕ)
  | _, [] => []
  | amount, a :: places => (a, min (cap a) amount) :: spread (amount - min (cap a) amount) places

@[simp] theorem map_fst_spread (amount : ℕ) (places : List α) :
    (spread cap amount places).map Prod.fst = places := by
  induction places generalizing amount with
  | nil => rfl
  | cons a places ih => rw [spread, List.map_cons, ih]

theorem sum_spread (amount : ℕ) (places : List α) :
    ((spread cap amount places).map Prod.snd).sum = min amount (places.map cap).sum := by
  induction places generalizing amount with
  | nil => simp [spread]
  | cons a places ih =>
    simp only [spread, List.map_cons, List.sum_cons, ih]
    omega

theorem le_of_mem_spread {amount n : ℕ} {places : List α} {a : α}
    (h : (a, n) ∈ spread cap amount places) : n ≤ cap a ∧ n ≤ amount := by
  induction places generalizing amount with
  | nil => cases h
  | cons b places ih =>
    rcases List.mem_cons.mp h with h | h
    · obtain ⟨rfl, rfl⟩ := Prod.mk.inj h
      omega
    · have := ih h
      omega

theorem exists_mem_spread {places : List α} {a : α} (ha : a ∈ places) (amount : ℕ) :
    ∃ n, (a, n) ∈ spread cap amount places := by
  rw [← map_fst_spread cap amount places] at ha
  obtain ⟨⟨b, n⟩, hb, rfl⟩ := List.mem_map.mp ha
  exact ⟨n, hb⟩

/-- What is placed somewhere leaves no room before it. -/
theorem eq_cap_of_later {places : List α} {a b : α} (hab : [a, b].Sublist places) {amount n m : ℕ}
    (hn : places.Nodup) (ha : (a, n) ∈ spread cap amount places)
    (hb : (b, m) ∈ spread cap amount places) (hm : 0 < m) : n = cap a := by
  induction places generalizing amount with
  | nil => cases ha
  | cons c places ih =>
    have hrest : ∀ {d : α} {k : ℕ}, (d, k) ∈ spread cap (amount - min (cap c) amount) places →
        d ∈ places := by
      intro d k h
      simpa using List.mem_map_of_mem (f := Prod.fst) h
    have hc : c ∉ places := (List.nodup_cons.mp hn).1
    cases hab with
    | cons _ hab =>
      -- both stand after the first place
      have hmem : ∀ d ∈ [a, b], d ≠ c := fun d hd heq => hc (heq ▸ hab.subset hd)
      rcases List.mem_cons.mp ha with h | ha
      · exact absurd (Prod.mk.inj h).1 (hmem a (by simp))
      rcases List.mem_cons.mp hb with h | hb
      · exact absurd (Prod.mk.inj h).1 (hmem b (by simp))
      exact ih hab (List.nodup_cons.mp hn).2 ha hb
    | cons_cons _ hab =>
      have hbc : b ≠ a := fun heq => hc (heq ▸ hab.subset (by simp))
      rcases List.mem_cons.mp hb with h | hb
      · exact absurd (Prod.mk.inj h).1 hbc
      rcases List.mem_cons.mp ha with h | ha
      · have hleft := (le_of_mem_spread cap hb).2
        obtain ⟨-, rfl⟩ := Prod.mk.inj h
        omega
      · exact absurd (hrest ha) hc

end PurdueAF.Greedy

import Mathlib.Data.List.Sort
import Mathlib.Order.Defs.LinearOrder

/-!
# A limit in a sliding window

A queue holds when the last requests were granted. What has aged is dropped from its front only
when the next request comes, which is granted while the rest of the queue is short of the limit.
-/
namespace PurdueAF.SlidingLimit

section Queue
variable {T : Type*} (old : T → T → Bool) (limit : ℕ)

/-- What has aged at the front is dropped. -/
def trim (now : T) (queue : List T) : List T := queue.dropWhile (old now)

def ask (queue : List T) (now : T) : Bool × List T :=
  if limit ≤ (trim old now queue).length then (false, trim old now queue)
  else (true, trim old now queue ++ [now])

def answers : List T → List T → List Bool
  | _, [] => []
  | queue, now :: times => (ask old limit queue now).1 :: answers (ask old limit queue now).2 times

/-- When requests were granted. -/
def granted (queue : List T) (times : List T) : List T :=
  ((times.zip (answers old limit queue times)).filter Prod.snd).map Prod.fst

end Queue

/-- What is old stays old, and so is what came before it. -/
structure Ages {T : Type*} [LinearOrder T] (old : T → T → Bool) : Prop where
  later : ∀ {now now' t}, now ≤ now' → old now t = true → old now' t = true
  earlier : ∀ {now t t'}, t ≤ t' → old now t' = true → old now t = true

section Limit

theorem dropWhile_dropWhile {α : Type*} {p p' : α → Bool} (h : ∀ x, p x = true → p' x = true)
    (l : List α) : (l.dropWhile p).dropWhile p' = l.dropWhile p' := by
  induction l with
  | nil => rfl
  | cons x l ih =>
    by_cases hx : p x = true
    · rw [List.dropWhile_cons_of_pos hx, List.dropWhile_cons_of_pos (h x hx), ih]
    · rw [List.dropWhile_cons_of_neg hx]

variable {T : Type*} {old : T → T → Bool} {limit : ℕ}

theorem ask_cases (old : T → T → Bool) (limit : ℕ) (queue : List T) (now : T) :
    (limit ≤ (trim old now queue).length ∧
      ask old limit queue now = (false, trim old now queue)) ∨
    ((trim old now queue).length < limit ∧
      ask old limit queue now = (true, trim old now queue ++ [now])) := by
  rw [ask]
  split_ifs with hfull
  · exact .inl ⟨hfull, rfl⟩
  · exact .inr ⟨Nat.lt_of_not_le hfull, rfl⟩

variable [LinearOrder T]

/-- Queues that no later request tells apart. -/
def Alike (old : T → T → Bool) (last : T) (queue queue' : List T) : Prop :=
  ∀ now, last ≤ now → trim old now queue = trim old now queue'

theorem alike_ask (limit : ℕ) {last now : T} {queue queue' : List T} (h : Alike old last queue queue')
    (hnow : last ≤ now) : ask old limit queue now = ask old limit queue' now := by
  rw [ask, ask, h now hnow]

theorem alike_trim (hages : Ages old) (now : T) (queue : List T) :
    Alike old now (trim old now queue) queue :=
  fun _ hnow => dropWhile_dropWhile (fun _ => hages.later hnow) queue

/-- A refused request changes nothing for later ones. -/
theorem alike_refused (hages : Ages old) {queue : List T} {now : T}
    (hrefused : (ask old limit queue now).1 = false) :
    Alike old now (ask old limit queue now).2 queue := by
  rcases ask_cases old limit queue now with ⟨-, heq⟩ | ⟨-, heq⟩
  · rw [heq]
    exact alike_trim hages now queue
  · rw [heq] at hrefused
    cases hrefused

/-- The queue keeps those of the requests granted that no later request finds old. -/
structure Kept (old : T → T → Bool) (last : T) (queue all : List T) : Prop where
  trim : ∀ now, last ≤ now → trim old now queue = all.filter fun t => !old now t
  le : ∀ t ∈ all, t ≤ last

theorem kept_nil (last : T) : Kept old last [] [] := ⟨fun _ _ => rfl, by simp⟩

theorem kept_trim (hages : Ages old) {last now : T} {queue all : List T}
    (h : Kept old last queue all) (hnow : last ≤ now) : Kept old now (trim old now queue) all := by
  refine ⟨fun now' hnow' => ?_, fun t ht => (h.le t ht).trans hnow⟩
  rw [alike_trim hages now queue now' hnow', h.trim now' (hnow.trans hnow')]

theorem trim_append (hages : Ages old) {queue : List T} {now now' : T}
    (hle : ∀ t ∈ trim old now' queue, t ≤ now) :
    trim old now' (queue ++ [now]) = trim old now' queue ++ [now].filter fun t => !old now' t := by
  rw [trim, trim, List.dropWhile_append]
  split_ifs with hnil
  · rw [List.isEmpty_iff.mp hnil, List.nil_append]
    by_cases hold : old now' now = true
    · simp [hold]
    · simp [hold]
  · -- an older one is kept, and then so is this one
    obtain ⟨t, rest, ht⟩ := List.exists_cons_of_ne_nil fun heq => hnil (List.isEmpty_iff.mpr heq)
    have hyoung : ¬old now' t = true := by
      have hhead := List.head?_dropWhile_not (old now') queue
      rw [ht] at hhead
      simpa using hhead
    have hle' : t ≤ now := hle t (by rw [trim, ht]; simp)
    have hkept : ¬old now' now = true := fun hold => hyoung (hages.earlier hle' hold)
    simp [hkept]

/-- What is granted with one request more. -/
def grow (old : T → T → Bool) (limit : ℕ) (queue : List T) (now : T) (all : List T) : List T :=
  if (ask old limit queue now).1 then all ++ [now] else all

theorem kept_ask (hages : Ages old) {last now : T} {queue all : List T}
    (h : Kept old last queue all) (hnow : last ≤ now) :
    Kept old now (ask old limit queue now).2 (grow old limit queue now all) := by
  have hkept := kept_trim hages h hnow
  rcases ask_cases old limit queue now with ⟨-, heq⟩ | ⟨-, heq⟩
  · rw [grow, heq]
    exact hkept
  · rw [grow, heq, if_pos rfl]
    refine ⟨?_, ?_⟩
    · intro now' hnow'
      have hle : ∀ t ∈ trim old now' (trim old now queue), t ≤ now := by
        intro t ht
        rw [hkept.trim now' hnow'] at ht
        exact hkept.le t (List.mem_of_mem_filter ht)
      rw [trim_append hages hle, hkept.trim now' hnow', List.filter_append]
    · intro t ht
      rcases List.mem_append.mp ht with ht | ht
      · exact hkept.le t ht
      · exact (List.mem_singleton.mp ht).le

/-- No window holds more than the limit. -/
def Bounded (old : T → T → Bool) (limit : ℕ) (all : List T) : Prop :=
  ∀ window : T → Bool, (∀ t t', window t = true → window t' = true → t ≤ t' → old t' t = false) →
    all.countP window ≤ limit

theorem bounded_ask {last now : T} {queue all : List T} (hbounded : Bounded old limit all)
    (h : Kept old last queue all) (hnow : last ≤ now) :
    Bounded old limit (grow old limit queue now all) := by
  intro window hwindow
  rcases ask_cases old limit queue now with ⟨-, heq⟩ | ⟨hfree, heq⟩
  · rw [grow, heq]
    exact hbounded window hwindow
  · rw [grow, heq, if_pos rfl, List.countP_append]
    by_cases hin : window now = true
    · -- the others in the window are in the queue, which is short of the limit
      have hothers : all.countP window ≤ all.countP fun t => !old now t := by
        apply List.countP_mono_left
        intro t ht hwin
        rw [hwindow t now hwin hin ((h.le t ht).trans hnow)]
        rfl
      rw [List.countP_eq_length_filter (p := fun t => !old now t), ← h.trim now hnow] at hothers
      have hone : ([now] : List T).countP window = 1 := by simp [hin]
      omega
    · have hnone : ([now] : List T).countP window = 0 := by simp [hin]
      have := hbounded window hwindow
      omega

theorem bounded_append_granted (hages : Ages old) {last : T} {queue all times : List T}
    (hbounded : Bounded old limit all) (h : Kept old last queue all)
    (htimes : (last :: times).Pairwise (· ≤ ·)) :
    Bounded old limit (all ++ granted old limit queue times) := by
  induction times generalizing last queue all with
  | nil => simpa [granted] using hbounded
  | cons now times ih =>
    obtain ⟨hlast, hrest⟩ := List.pairwise_cons.mp htimes
    have hnow : last ≤ now := hlast now (by simp)
    have hnext := ih (bounded_ask hbounded h hnow) (kept_ask hages h hnow) hrest
    have hgrow : grow old limit queue now all ++ granted old limit (ask old limit queue now).2 times =
        all ++ granted old limit queue (now :: times) := by
      rw [grow, granted, granted, answers, List.zip_cons_cons, List.filter_cons]
      split_ifs <;> simp
    rwa [hgrow] at hnext

/-- In no window are more requests granted than the limit. -/
theorem countP_granted_le (hages : Ages old) {times : List T} (htimes : times.Pairwise (· ≤ ·))
    {window : T → Bool}
    (hwindow : ∀ t t', window t = true → window t' = true → t ≤ t' → old t' t = false) :
    (granted old limit [] times).countP window ≤ limit := by
  cases times with
  | nil => exact Nat.zero_le _
  | cons now times =>
    have hpairs : (now :: now :: times).Pairwise (· ≤ ·) := by
      refine List.pairwise_cons.mpr ⟨?_, htimes⟩
      intro t ht
      rcases List.mem_cons.mp ht with rfl | ht
      · exact le_refl t
      · exact (List.pairwise_cons.mp htimes).1 t ht
    have hbounded : Bounded old limit [] := fun _ _ => Nat.zero_le _
    exact bounded_append_granted hages hbounded (kept_nil now) hpairs window hwindow

end Limit

end PurdueAF.SlidingLimit

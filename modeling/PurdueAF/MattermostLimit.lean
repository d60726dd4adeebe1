import Mathlib.Data.Real.Basic
import Mathlib.Tactic.Linarith
import PurdueAF.Binary64
import PurdueAF.Dict
import PurdueAF.SlidingLimit

/-!
# Questions over the limit

`Agent.allowed` of the Mattermost agent counts the questions of each user. A time is the rational
that a double of `time.monotonic()` stands for, and the difference of two is rounded to a double.
-/
namespace PurdueAF.Mattermost
open Binary64 SlidingLimit

def userLimit : ℕ := 5

def userWindowSeconds : ℚ := 600

/-- What `Agent.allowed` reads and writes of the agent. -/
structure Limits where
  asked : Dict String (List ℚ)
  warned : List String

def Limits.start : Limits := ⟨[], []⟩

/-- `now - t > USER_WINDOW_SECONDS` -/
def aged (now t : ℚ) : Bool :=
  lt (.finite userWindowSeconds) (sub (.finite now) (.finite t))

def allowed (limits : Limits) (userId : String) (now : ℚ) : Bool × Limits :=
  -- the deque that `self.asked[user_id]` gives or makes, trimmed in place
  let asked := ((limits.asked.get? userId).getD []).dropWhile (aged now)
  if userLimit ≤ asked.length then
    (false, { limits with asked := limits.asked.set userId asked })
  else
    (true, ⟨limits.asked.set userId (asked ++ [now]), limits.warned.filter (· ≠ userId)⟩)

structure Question where
  user : String
  time : ℚ
  deriving DecidableEq

/-- The answers to questions as they come. -/
def answersTo : Limits → List Question → List Bool
  | _, [] => []
  | limits, q :: questions =>
    (allowed limits q.user q.time).1 :: answersTo (allowed limits q.user q.time).2 questions

theorem aged_iff {now t : ℚ} : aged now t = true ↔ lt (.finite 600) (nearest (now - t)) = true := by
  rw [aged, sub, neg, add, ← sub_eq_add_neg]
  rfl

theorem nearest_six_hundred : nearest 600 = .finite 600 := by decide +kernel

/-- A difference that is in the window is rounded to one that is. -/
theorem not_aged {now t : ℚ} (h : now - t ≤ userWindowSeconds) : aged now t = false := by
  have hle : le (nearest (now - t)) (.finite 600) = true := by
    rcases le_or_gt (now - t) 0 with hneg | hpos
    · exact value_le_trans (nearest_nonpos hneg) (by decide)
    · rw [← nearest_six_hundred]
      exact nearest_mono hpos h
  rw [Bool.eq_false_iff, Ne, aged_iff, value_not_lt hle]
  simp

theorem aged_mono {now t now' t' : ℚ} (h : now - t ≤ now' - t') (haged : aged now t = true) :
    aged now' t' = true := by
  have hpos : 0 < now - t := by
    by_contra hneg
    have hwindow : now - t ≤ userWindowSeconds := (not_lt.mp hneg).trans (by norm_num [userWindowSeconds])
    rw [not_aged hwindow] at haged
    cases haged
  rw [aged_iff] at haged ⊢
  exact value_lt_of_lt_of_le haged (nearest_mono hpos h)

theorem ages_aged : Ages aged where
  later h := aged_mono (by linarith)
  earlier h := aged_mono (by linarith)

def queueOf (limits : Limits) (user : String) : List ℚ := (limits.asked.get? user).getD []

def timesOf (questions : List Question) (user : String) : List ℚ :=
  (questions.filter fun q => q.user = user).map Question.time

theorem allowed_eq (limits : Limits) (user : String) (now : ℚ) :
    ∃ warned, allowed limits user now = ((ask aged userLimit (queueOf limits user) now).1,
      ⟨limits.asked.set user (ask aged userLimit (queueOf limits user) now).2, warned⟩) := by
  rcases ask_cases aged userLimit (queueOf limits user) now with ⟨hfull, heq⟩ | ⟨hfree, heq⟩
  · rw [heq]
    exact ⟨_, if_pos hfull⟩
  · rw [heq]
    exact ⟨_, if_neg (Nat.not_le.mpr hfree)⟩

theorem allowed_fst (limits : Limits) (user : String) (now : ℚ) :
    (allowed limits user now).1 = (ask aged userLimit (queueOf limits user) now).1 := by
  obtain ⟨warned, heq⟩ := allowed_eq limits user now
  rw [heq]

/-- A question touches the queue of its user alone. -/
theorem queueOf_allowed (limits : Limits) (user other : String) (now : ℚ) :
    queueOf (allowed limits user now).2 other =
      if other = user then (ask aged userLimit (queueOf limits user) now).2
      else queueOf limits other := by
  obtain ⟨warned, heq⟩ := allowed_eq limits user now
  rw [heq, queueOf, Dict.get?_set]
  split_ifs <;> rfl

/-- What a user is answered in a run. -/
def answersOf (limits : Limits) (questions : List Question) (user : String) : List (ℚ × Bool) :=
  ((questions.zip (answersTo limits questions)).filter fun p => p.1.user = user).map
    fun p => (p.1.time, p.2)

/-- The answers of a user are those of its own queue. -/
theorem answersOf_eq (limits : Limits) (questions : List Question) (user : String) :
    answersOf limits questions user = (timesOf questions user).zip
      (answers aged userLimit (queueOf limits user) (timesOf questions user)) := by
  induction questions generalizing limits with
  | nil => rfl
  | cons q questions ih =>
    have hrest := ih (allowed limits q.user q.time).2
    rw [answersOf, timesOf] at hrest ⊢
    rw [answersTo, List.zip_cons_cons, List.filter_cons, List.filter_cons]
    rw [queueOf_allowed] at hrest
    by_cases huser : q.user = user
    · subst huser
      simp only [decide_true, ↓reduceIte, List.map_cons, answers, List.zip_cons_cons, allowed_fst]
        at hrest ⊢
      rw [hrest]
    · rw [if_neg (Ne.symm huser)] at hrest
      simpa [huser] using hrest

/-- What is kept behind some questions. -/
def Limits.behind (limits : Limits) (questions : List Question) : Limits :=
  questions.foldl (fun limits q => (allowed limits q.user q.time).2) limits

theorem answersTo_append (limits : Limits) (questions later : List Question) :
    answersTo limits (questions ++ later) =
      answersTo limits questions ++ answersTo (limits.behind questions) later := by
  induction questions generalizing limits with
  | nil => rfl
  | cons q questions ih =>
    rw [List.cons_append, answersTo, ih]
    rfl

/-- The questions of others change no answer. -/
theorem answersTo_filter {limits limits' : Limits} {user : String}
    (h : queueOf limits user = queueOf limits' user) (questions : List Question) :
    ((questions.zip (answersTo limits questions)).filter fun p => p.1.user = user) =
      (questions.filter fun q => q.user = user).zip
        (answersTo limits' (questions.filter fun q => q.user = user)) := by
  induction questions generalizing limits limits' with
  | nil => rfl
  | cons q questions ih =>
    rw [answersTo, List.zip_cons_cons, List.filter_cons, List.filter_cons]
    by_cases huser : q.user = user
    · subst huser
      have hnext : queueOf (allowed limits q.user q.time).2 q.user =
          queueOf (allowed limits' q.user q.time).2 q.user := by
        rw [queueOf_allowed, queueOf_allowed, h]
      simp only [decide_true, ↓reduceIte, answersTo, List.zip_cons_cons, allowed_fst, h, ih hnext]
    · have hnext : queueOf (allowed limits q.user q.time).2 user = queueOf limits' user := by
        rw [queueOf_allowed, if_neg (Ne.symm huser), h]
      simpa [huser] using ih hnext

/-- Memories that no later question tells apart. -/
def Alike (last : ℚ) (limits limits' : Limits) : Prop :=
  ∀ user, SlidingLimit.Alike aged last (queueOf limits user) (queueOf limits' user)

theorem answersTo_alike {last : ℚ} {limits limits' : Limits} (h : Alike last limits limits')
    {questions : List Question} (hsorted : (last :: questions.map Question.time).Pairwise (· ≤ ·)) :
    answersTo limits questions = answersTo limits' questions := by
  induction questions generalizing last limits limits' with
  | nil => rfl
  | cons q questions ih =>
    obtain ⟨hlast, hrest⟩ := List.pairwise_cons.mp hsorted
    have hnow : last ≤ q.time := hlast _ (by simp)
    have hask := alike_ask userLimit (h q.user) hnow
    have hnext : Alike q.time (allowed limits q.user q.time).2 (allowed limits' q.user q.time).2 := by
      intro user now' hnow'
      rw [queueOf_allowed, queueOf_allowed, hask]
      split_ifs
      · rfl
      · exact h user now' (hnow.trans hnow')
    rw [answersTo, answersTo, allowed_fst, allowed_fst, hask, ih hnext hrest]

/-- The limit holds in every window, wherever it starts; what is refused does not count, and nobody's
questions count for another. -/
theorem questions_limited (questions : List Question)
    (hsorted : (questions.map Question.time).Pairwise (· ≤ ·)) :
    (∀ (user : String) (s : ℝ), ((questions.zip (answersTo .start questions)).countP fun p =>
      p.2 && decide (p.1.user = user) &&
        decide (s ≤ p.1.time ∧ (p.1.time : ℝ) ≤ s + userWindowSeconds)) ≤ userLimit) ∧
    (∀ before q later rest, questions = before ++ q :: later →
      answersTo .start questions = answersTo .start before ++ false :: rest →
        answersTo .start (before ++ later) = answersTo .start before ++ rest) ∧
    ∀ user : String,
      ((questions.zip (answersTo .start questions)).filter fun p => p.1.user = user) =
        (questions.filter fun q => q.user = user).zip
          (answersTo .start (questions.filter fun q => q.user = user)) := by
  refine ⟨?_, ?_, fun user => answersTo_filter rfl questions⟩
  · intro user s
    have hcount : (questions.zip (answersTo .start questions)).countP (fun p =>
        p.2 && decide (p.1.user = user) &&
          decide (s ≤ p.1.time ∧ (p.1.time : ℝ) ≤ s + userWindowSeconds)) =
        (granted aged userLimit [] (timesOf questions user)).countP fun t : ℚ =>
          decide (s ≤ t ∧ (t : ℝ) ≤ s + userWindowSeconds) := by
      have hgranted : granted aged userLimit [] (timesOf questions user) =
          ((answersOf .start questions user).filter Prod.snd).map Prod.fst := by
        rw [answersOf_eq]
        rfl
      rw [hgranted, answersOf, List.countP_map, List.countP_filter, List.countP_map,
        List.countP_filter]
      congr 1
      funext p
      simp only [Function.comp_apply]
      cases p.2 <;> cases decide (p.1.user = user) <;> simp
    rw [hcount]
    apply countP_granted_le ages_aged
    · exact (hsorted.sublist ((List.filter_sublist).map _))
    · intro t t' ht ht' hle
      apply not_aged
      rw [decide_eq_true_eq] at ht ht'
      have hdiff : ((t' - t : ℚ) : ℝ) ≤ (userWindowSeconds : ℝ) := by
        push_cast
        linarith [ht.1, ht'.2]
      exact_mod_cast hdiff
  · rintro before q later rest rfl hanswers
    rw [answersTo_append, answersTo] at hanswers
    obtain ⟨hrefused, hrest⟩ := List.cons.inj (List.append_cancel_left hanswers)
    rw [allowed_fst] at hrefused
    have halike : Alike q.time (allowed (Limits.start.behind before) q.user q.time).2
        (Limits.start.behind before) := by
      intro user
      rw [queueOf_allowed]
      split_ifs with huser
      · subst huser
        exact alike_refused ages_aged hrefused
      · exact fun _ _ => rfl
    have htimes : (q.time :: later.map Question.time).Pairwise (· ≤ ·) := by
      refine hsorted.sublist ?_
      rw [List.map_append, List.map_cons]
      exact List.sublist_append_right _ _
    rw [answersTo_append, ← answersTo_alike halike htimes, hrest]

/-- As many at once as are answered, and what comes after one more. -/
def atOnce : List Question := List.replicate 5 ⟨"u", 0⟩

def oneMore : Question := ⟨"u", 1⟩

def afterwards : List Question := [⟨"v", 1⟩, ⟨"u", 601⟩]

theorem questions_limited_six :
    (((atOnce ++ oneMore :: afterwards).zip
      (answersTo .start (atOnce ++ oneMore :: afterwards))).countP fun p =>
        p.2 && decide (p.1.user = "u") &&
          decide ((0 : ℝ) ≤ p.1.time ∧ (p.1.time : ℝ) ≤ 0 + userWindowSeconds)) ≤ userLimit ∧
    answersTo .start (atOnce ++ afterwards) = answersTo .start atOnce ++ [true, true] := by
  have hsorted : ((atOnce ++ oneMore :: afterwards).map Question.time).Pairwise
      (· ≤ ·) := by decide +kernel
  have hanswers : answersTo .start (atOnce ++ oneMore :: afterwards) =
      answersTo .start atOnce ++ false :: [true, true] := by decide +kernel
  exact ⟨(questions_limited _ hsorted).1 "u" 0,
    (questions_limited _ hsorted).2.1 _ _ _ _ rfl hanswers⟩

end PurdueAF.Mattermost

import PurdueAF.MattermostPolling

/-!
# A post is handled once

A cursor stands at or after every post that was seen and before every new one that was not; while
a channel's answer is read, before those that came after the answer. So no post is passed over and
none is new twice, unless a thread cannot be read in the middle of a loop or a conversation the
agent knows is found as a new one.
-/
namespace PurdueAF.Mattermost
open Machine

def Sys.keys (s : Sys) : List Key := s.posts.map Post.key

def Seen (s : Sys) (k : Key) : Prop := k.id ∈ s.sights.map fun x => x.post.id

/-- Written after the channel's polling began. -/
def Due (s : Sys) (k : Key) : Prop := ∃ b, s.began.get? k.channel = some b ∧ b < k.createAt

structure Stamped (s : Sys) : Prop where
  nodup : (s.keys.map Key.id).Nodup
  le : ∀ p ∈ s.posts, p.createAt ≤ p.updateAt ∧ p.updateAt ≤ s.clock
  one : 1 ≤ s.clock
  cursor : ∀ ch c, s.cursors.get? ch = some c → c ≤ s.clock

/-- What holds at every moment of a poll. -/
structure Booked (bot : Bot) (s : Sys) : Prop where
  stamped : Stamped s
  handled : s.handled = (s.sights.filter (Sight.selected bot)).map fun x => x.post.id
  nodup : (s.sights.map fun x => x.post.id).Nodup
  known : ∀ x ∈ s.sights, x.post.key ∈ s.keys
  past : ∀ x ∈ s.sights, ∃ c, s.cursors.get? x.post.channel = some c ∧ x.post.createAt ≤ c
  finished : ∀ ch T, s.finished.get? ch = some T → T ≤ s.clock ∧ s.cursors.get? ch ≠ none ∧
    ∀ k ∈ s.keys, k.channel = ch → Due s k → k.createAt ≤ T → Seen s k

/-- Every new post of the channel that was not seen is after its cursor. -/
def Resting (s : Sys) (ch : String) : Prop :=
  ∀ k ∈ s.keys, k.channel = ch → Due s k → ¬Seen s k →
    ∀ c, s.cursors.get? ch = some c → c < k.createAt

/-- While the answer of time `taken` to `cursor` is read, with `posts` to go. -/
structure Reading (s : Sys) (ch : String) (cursor taken : ℕ) (posts : List Post) : Prop where
  taken_le : taken ≤ s.clock
  from_le : cursor ≤ taken
  stands : ∃ c, s.cursors.get? ch = some c ∧ c ≤ taken
  versions : ∀ r ∈ posts, r.channel = ch ∧ r.createAt ≤ r.updateAt ∧ r.updateAt ≤ taken ∧
    r.key ∈ s.keys ∧ (cursor < r.createAt → ¬Seen s r.key)
  nodup : (posts.map Post.id).Nodup
  unseen : ∀ k ∈ s.keys, k.channel = ch → Due s k → ¬Seen s k →
    cursor < k.createAt ∧ (k.id ∈ posts.map Post.id ∨ taken < k.createAt)
  others : ∀ ch', ch' ≠ ch → Resting s ch'

/-- The cursor of a channel is at `n` or after it. -/
def CursorPast (s : Sys) (ch : String) (n : ℕ) : Prop :=
  ∃ c, s.cursors.get? ch = some c ∧ n ≤ c

def AtPc (bot : Bot) (s : Sys) : Prop :=
  match s.pc with
  | .idle | .looking _ => ∀ ch, Resting s ch
  | .fetching ch cursor _ => s.cursors.get? ch = cursor ∧ ∀ ch, Resting s ch
  | .reading ch cursor taken post posts _ =>
    Reading s ch cursor taken (post :: posts) ∧ CursorPast s ch post.updateAt ∧
      wanted bot s.direct post cursor = false ∧ asksThread bot post cursor = true

structure Sound (bot : Bot) (s : Sys) : Prop where
  booked : Booked bot s
  atPc : AtPc bot s

theorem key_eq_of_id {s : Sys} (h : Stamped s) {k l : Key} (hk : k ∈ s.keys) (hl : l ∈ s.keys)
    (hid : k.id = l.id) : k = l := List.inj_on_of_nodup_map h.nodup hk hl hid

section Loop
variable {bot : Bot} {s : Sys} {ch : String} {cursor taken : ℕ} {post : Post} {posts : List Post}

theorem get?_advance_self (s : Sys) (ch : String) (post : Post) :
    (advance s ch post).cursors.get? ch =
      some (max ((s.cursors.get? ch).getD 0) post.updateAt) := Dict.get?_set_self ..

theorem get?_advance_other {ch' : String} (s : Sys) (post : Post) (h : ch' ≠ ch) :
    (advance s ch post).cursors.get? ch' = s.cursors.get? ch' := Dict.get?_set_ne _ _ h

/-- The cursor moves on to the post's last change, and not beyond the answer. -/
theorem advance_sound (hb : Booked bot s) (hr : Reading s ch cursor taken (post :: posts)) :
    Booked bot (advance s ch post) ∧ Reading (advance s ch post) ch cursor taken (post :: posts) ∧
      CursorPast (advance s ch post) ch post.updateAt := by
  obtain ⟨c, hc, hct⟩ := hr.stands
  obtain ⟨-, -, hpt, -, -⟩ := hr.versions post (by simp)
  have hnew : (advance s ch post).cursors.get? ch = some (max c post.updateAt) := by
    rw [get?_advance_self, hc]
    rfl
  refine ⟨?_, ?_, ?_⟩
  · obtain ⟨⟨hn, hle, hone, hcur⟩, hhandled, hnodup, hknown, hpast, hfin⟩ := hb
    refine ⟨⟨hn, hle, hone, ?_⟩, hhandled, hnodup, hknown, ?_, ?_⟩
    · intro ch' d hd
      by_cases heq : ch' = ch
      · subst heq
        rw [hnew] at hd
        have hmax : max c post.updateAt = d := Option.some.inj hd
        have htaken := hr.taken_le
        show d ≤ s.clock
        omega
      · rw [get?_advance_other s post heq] at hd
        exact hcur ch' d hd
    · intro x hx
      obtain ⟨d, hd, hle'⟩ := hpast x hx
      by_cases heq : x.post.channel = ch
      · rw [heq, hc] at hd
        obtain rfl : c = d := Option.some.inj hd
        exact ⟨_, by rw [heq]; exact hnew, hle'.trans (le_max_left _ _)⟩
      · exact ⟨d, (get?_advance_other s post heq).trans hd, hle'⟩
    · intro ch' T hT
      obtain ⟨hTc, hsome, hseen⟩ := hfin ch' T hT
      refine ⟨hTc, ?_, hseen⟩
      by_cases heq : ch' = ch
      · rw [heq, hnew]
        exact Option.some_ne_none _
      · rw [get?_advance_other s post heq]
        exact hsome
  · refine ⟨hr.taken_le, hr.from_le, ⟨_, hnew, max_le hct hpt⟩, hr.versions, hr.nodup, hr.unseen, ?_⟩
    intro ch' hne k hk hkc hdue hunseen d hd
    rw [get?_advance_other s post hne] at hd
    exact hr.others ch' hne k hk hkc hdue hunseen d hd
  · exact ⟨_, hnew, le_max_right _ _⟩

theorem seen_settle {x : Sight} {handles : Bool} {k : Key} :
    Seen (settle s cursor x handles) k ↔
      Seen s k ∨ cursor < x.post.createAt ∧ k.id = x.post.id := by
  simp only [Seen, settle, List.map_append, List.mem_append]
  refine or_congr Iff.rfl ?_
  split_ifs with hnew
  · simp [hnew]
  · simp [hnew]

/-- One post decided: it is handled exactly if it is new and selected. -/
theorem settle_sound {direct inThread : Bool} (handles : Bool) (hb : Booked bot s)
    (hr : Reading s ch cursor taken (post :: posts)) (hc : CursorPast s ch post.updateAt)
    (hh : handles = (decide (cursor < post.createAt) &&
      Sight.selected bot ⟨post, direct, inThread⟩)) :
    Booked bot (settle s cursor ⟨post, direct, inThread⟩ handles) ∧
      Reading (settle s cursor ⟨post, direct, inThread⟩ handles) ch cursor taken posts := by
  obtain ⟨hpc, hcu, hut, hkey, hfresh⟩ := hr.versions post (by simp)
  obtain ⟨c, hcur, hcp⟩ := hc
  have hmono : ∀ k, Seen s k → Seen (settle s cursor ⟨post, direct, inThread⟩ handles) k :=
    fun k hk => seen_settle.mpr (.inl hk)
  have hdue : ∀ k, Due (settle s cursor ⟨post, direct, inThread⟩ handles) k ↔ Due s k :=
    fun _ => Iff.rfl
  refine ⟨?_, ?_⟩
  · obtain ⟨hstamped, hhandled, hnodup, hknown, hpast, hfin⟩ := hb
    refine ⟨⟨hstamped.nodup, hstamped.le, hstamped.one, hstamped.cursor⟩, ?_, ?_, ?_, ?_, ?_⟩
    · subst hh
      simp only [settle, hhandled]
      by_cases hnew : cursor < post.createAt
      · cases hsel : Sight.selected bot ⟨post, direct, inThread⟩ <;> simp [hnew, hsel]
      · simp [hnew]
    · simp only [settle]
      split_ifs with hnew
      · rw [List.map_append, List.nodup_append]
        refine ⟨hnodup, by simp, ?_⟩
        intro a ha b hb heq
        obtain rfl : b = post.id := by simpa using hb
        exact hfresh hnew (show post.id ∈ _ from heq ▸ ha)
      · simpa using hnodup
    · intro x hx
      simp only [settle, List.mem_append] at hx
      rcases hx with hx | hx
      · exact hknown x hx
      · split_ifs at hx
        · obtain rfl := List.mem_singleton.mp hx
          exact hkey
        · cases hx
    · intro x hx
      simp only [settle, List.mem_append] at hx
      rcases hx with hx | hx
      · exact hpast x hx
      · split_ifs at hx
        · obtain rfl := List.mem_singleton.mp hx
          exact ⟨c, by rw [← hcur, ← hpc]; rfl, hcu.trans hcp⟩
        · cases hx
    · intro ch' T hT
      obtain ⟨hle, hsome, hseen⟩ := hfin ch' T hT
      exact ⟨hle, hsome, fun k hk hkc hd hkT => hmono k (hseen k hk hkc hd hkT)⟩
  · have hnodup := hr.nodup
    rw [List.map_cons, List.nodup_cons] at hnodup
    refine ⟨hr.taken_le, hr.from_le, hr.stands, ?_, hnodup.2, ?_, ?_⟩
    · intro r hrm
      obtain ⟨hrc, hru, hrt, hrk, hrf⟩ := hr.versions r (by simp [hrm])
      refine ⟨hrc, hru, hrt, hrk, fun hnew hseen => ?_⟩
      rcases seen_settle.mp hseen with hseen | ⟨-, hid⟩
      · exact hrf hnew hseen
      · exact hnodup.1 (hid ▸ List.mem_map_of_mem hrm)
    · intro k hk hkc hd hunseen
      obtain ⟨hck, hwhere⟩ := hr.unseen k hk hkc hd fun hs => hunseen (hmono k hs)
      refine ⟨hck, ?_⟩
      rcases hwhere with hmem | hlater
      · rcases List.mem_cons.mp hmem with hid | hmem
        · -- The post is this one, which is new and so was just seen.
          have hsame : k = post.key := key_eq_of_id hb.stamped hk hkey hid
          refine absurd (seen_settle.mpr (.inr ⟨?_, hid⟩)) hunseen
          rw [hsame] at hck
          exact hck
        · exact .inl hmem
      · exact .inr hlater
    · intro ch' hne k hk hkc hd hunseen
      exact hr.others ch' hne k hk hkc hd fun hs => hunseen (hmono k hs)

theorem resting_of_done (hr : Reading s ch cursor taken []) (ch' : String) : Resting s ch' := by
  by_cases heq : ch' = ch
  · subst heq
    intro k hk hkc hd hunseen c hc
    obtain ⟨d, hd', hdt⟩ := hr.stands
    obtain rfl : d = c := Option.some.inj (hd'.symm.trans hc)
    obtain ⟨-, hmem | hlater⟩ := hr.unseen k hk hkc hd hunseen
    · cases hmem
    · omega
  · exact hr.others ch' heq

/-- The books do not depend on where the poll is. -/
theorem booked_pc (hb : Booked bot s) (pc : Pc) : Booked bot { s with pc := pc } :=
  ⟨⟨hb.stamped.nodup, hb.stamped.le, hb.stamped.one, hb.stamped.cursor⟩, hb.handled, hb.nodup,
    hb.known, hb.past, hb.finished⟩

theorem reading_pc (hr : Reading s ch cursor taken posts) (pc : Pc) :
    Reading { s with pc := pc } ch cursor taken posts :=
  ⟨hr.taken_le, hr.from_le, hr.stands, hr.versions, hr.nodup, hr.unseen, hr.others⟩

theorem nextChannel_sound (hb : Booked bot s) (hrest : ∀ ch, Resting s ch) (todo : List String) :
    Sound bot (nextChannel s todo) := by
  cases todo with
  | nil => exact ⟨booked_pc hb .idle, hrest⟩
  | cons ch todo => exact ⟨booked_pc hb (.fetching ch (s.cursors.get? ch) todo), rfl, hrest⟩

/-- An answer that was read to its end leaves nothing older than it unseen. -/
theorem finish_sound (hb : Booked bot s) (hr : Reading s ch cursor taken []) :
    Booked bot { s with finished := s.finished.set ch taken } := by
  refine ⟨⟨hb.stamped.nodup, hb.stamped.le, hb.stamped.one, hb.stamped.cursor⟩, hb.handled,
    hb.nodup, hb.known, hb.past, ?_⟩
  intro ch' T hT
  by_cases heq : ch' = ch
  · subst heq
    obtain rfl : taken = T := Option.some.inj ((Dict.get?_set_self ..).symm.trans hT)
    obtain ⟨c, hc, -⟩ := hr.stands
    have hsome : s.cursors.get? ch' ≠ none := by
      rw [hc]
      exact Option.some_ne_none _
    refine ⟨hr.taken_le, hsome, fun k hk hkc hd hkT => ?_⟩
    by_contra hunseen
    obtain ⟨-, hmem | hlater⟩ := hr.unseen k hk hkc hd hunseen
    · cases hmem
    · omega
  · exact hb.finished ch' T ((Dict.get?_set_ne _ _ heq).symm.trans hT)

theorem selected_of_wanted {direct : List String} (inThread : Bool)
    (h : wanted bot direct post cursor = true) :
    cursor < post.createAt ∧
      Sight.selected bot ⟨post, direct.contains post.channel, inThread⟩ = true := by
  simp only [wanted, byAPerson, Bool.and_eq_true, decide_eq_true_eq] at h
  obtain ⟨⟨hnew, hperson⟩, hfor⟩ := h
  refine ⟨hnew, ?_⟩
  unfold Sight.selected
  rw [hperson, hfor]
  rfl

theorem not_selected {direct : List String} (hw : wanted bot direct post cursor = false) :
    (decide (cursor < post.createAt) &&
      Sight.selected bot ⟨post, direct.contains post.channel, false⟩) = false := by
  unfold wanted byAPerson at hw
  unfold Sight.selected
  by_cases hnew : cursor < post.createAt <;> simp_all

/-- Once the thread is read, the answer decides. -/
theorem selected_of_asked {direct : List String} {mine : Bool}
    (hw : wanted bot direct post cursor = false) (ha : asksThread bot post cursor = true) :
    mine = (decide (cursor < post.createAt) &&
      Sight.selected bot ⟨post, direct.contains post.channel, mine⟩) := by
  simp only [asksThread, byAPerson, Bool.and_eq_true] at ha
  obtain ⟨⟨hroot, hnew, hperson⟩, hat⟩ := ha
  simp only [wanted, byAPerson, hnew, hperson, Bool.true_and] at hw
  unfold Sight.selected
  rw [hnew, hperson, hw, hroot, hat]
  cases mine <;> rfl

/-- The loop keeps the books, whether it comes to its end or to a thread it has to ask for. -/
theorem readPosts_sound (todo : List String) (hb : Booked bot s)
    (hr : Reading s ch cursor taken posts) :
    Sound bot (readPosts bot ch cursor taken todo s posts) := by
  induction posts generalizing s with
  | nil =>
    have hrest := resting_of_done hr
    exact nextChannel_sound (finish_sound hb hr) hrest todo
  | cons post posts ih =>
    obtain ⟨hb', hr', hc⟩ := advance_sound hb hr
    simp only [readPosts]
    split_ifs with hw ha
    · obtain ⟨hnew, hsel⟩ := selected_of_wanted false hw
      obtain ⟨hb'', hr''⟩ := settle_sound true hb' hr' hc (by rw [hsel]; simp [hnew])
      exact ih hb'' hr''
    · exact ⟨booked_pc hb' _, reading_pc hr' _, hc, by simpa using hw, ha⟩
    · have hnot := not_selected (by simpa using hw)
      obtain ⟨hb'', hr''⟩ := settle_sound false hb' hr' hc hnot.symm
      exact ih hb'' hr''

end Loop

section Server
variable {bot : Bot} {s : Sys} {time : ℕ} {posts : List Post}

/-- The keys of the posts after a change at the server: those before, and one that is written. -/
structure Grown (s : Sys) (time : ℕ) (posts : List Post) : Prop where
  later : s.clock < time
  keys : ∀ k ∈ posts.map Post.key, k ∈ s.keys ∨ k.createAt = time
  kept : ∀ k ∈ s.keys, k ∈ posts.map Post.key
  nodup : ((posts.map Post.key).map Key.id).Nodup
  le : ∀ p ∈ posts, p.createAt ≤ p.updateAt ∧ p.updateAt ≤ time

theorem booked_grown (h : Grown s time posts) (hb : Booked bot s) :
    Booked bot { s with posts := posts, clock := time } := by
  obtain ⟨⟨-, -, hone, hcur⟩, hhandled, hnodup, hknown, hpast, hfin⟩ := hb
  have hlater := h.later
  refine ⟨⟨h.nodup, h.le, ?_, ?_⟩, hhandled, hnodup, ?_, hpast, ?_⟩
  · show 1 ≤ time
    omega
  · intro ch c hc
    exact (hcur ch c hc).trans hlater.le
  · exact fun x hx => h.kept _ (hknown x hx)
  · intro ch T hT
    obtain ⟨hle, hsome, hseen⟩ := hfin ch T hT
    refine ⟨hle.trans hlater.le, hsome, fun k hk hkc hd hkT => ?_⟩
    rcases h.keys k hk with hold | hnew
    · exact hseen k hold hkc hd hkT
    · omega

theorem resting_grown (h : Grown s time posts) (hb : Booked bot s) {ch : String}
    (hrest : Resting s ch) : Resting { s with posts := posts, clock := time } ch := by
  intro k hk hkc hd hunseen c hc
  rcases h.keys k hk with hold | hnew
  · exact hrest k hold hkc hd hunseen c hc
  · have hle := hb.stamped.cursor ch c hc
    have hlater := h.later
    omega

theorem reading_grown (h : Grown s time posts) (hb : Booked bot s) {ch : String}
    {cursor taken : ℕ} {toGo : List Post} (hr : Reading s ch cursor taken toGo) :
    Reading { s with posts := posts, clock := time } ch cursor taken toGo := by
  have hlater := h.later
  have htaken := hr.taken_le
  have hfrom := hr.from_le
  refine ⟨htaken.trans hlater.le, hfrom, hr.stands, ?_, hr.nodup, ?_,
    fun ch' hne => resting_grown h hb (hr.others ch' hne)⟩
  · intro r hrm
    obtain ⟨hrc, hru, hrt, hrk, hrf⟩ := hr.versions r hrm
    exact ⟨hrc, hru, hrt, h.kept _ hrk, hrf⟩
  · intro k hk hkc hd hunseen
    rcases h.keys k hk with hold | hnew
    · exact hr.unseen k hold hkc hd hunseen
    · exact ⟨by omega, .inr (by omega)⟩

theorem sound_grown (h : Grown s time posts) (hs : Sound bot s) :
    Sound bot { s with posts := posts, clock := time } := by
  obtain ⟨hb, hpc⟩ := hs
  refine ⟨booked_grown h hb, ?_⟩
  unfold AtPc at hpc ⊢
  dsimp only
  cases hcase : s.pc with
  | idle =>
    rw [hcase] at hpc
    exact fun ch => resting_grown h hb (hpc ch)
  | looking now =>
    rw [hcase] at hpc
    exact fun ch => resting_grown h hb (hpc ch)
  | fetching ch cursor todo =>
    rw [hcase] at hpc
    exact ⟨hpc.1, fun ch => resting_grown h hb (hpc.2 ch)⟩
  | reading ch cursor taken post toGo todo =>
    rw [hcase] at hpc
    exact ⟨reading_pc (reading_grown h hb hpc.1) _, hpc.2⟩

theorem grown_write {post : Post} (hlater : s.clock < time) (hb : Booked bot s)
    (hid : post.id ∉ s.posts.map Post.id) :
    Grown s time
      (s.posts ++ [{ post with createAt := time, updateAt := time, deleteAt := 0 }]) := by
  have hids : (s.keys.map Key.id) = s.posts.map Post.id := by
    simp [Sys.keys, Post.key, Function.comp_def]
  refine ⟨hlater, ?_, ?_, ?_, ?_⟩
  · intro k hk
    rw [List.map_append, List.mem_append] at hk
    rcases hk with hk | hk
    · exact .inl hk
    · obtain rfl := List.mem_singleton.mp hk
      exact .inr rfl
  · intro k hk
    rw [List.map_append]
    exact List.mem_append_left _ hk
  · rw [List.map_append, List.map_append, List.nodup_append]
    refine ⟨hb.stamped.nodup, by simp, ?_⟩
    intro a ha b hbm heq
    obtain rfl : b = post.id := by simpa [Post.key] using hbm
    have hmem : a ∈ s.posts.map Post.id := hids ▸ ha
    exact hid (heq ▸ hmem)
  · intro p hp
    rw [List.mem_append] at hp
    rcases hp with hp | hp
    · obtain ⟨hcu, huc⟩ := hb.stamped.le p hp
      exact ⟨hcu, huc.trans hlater.le⟩
    · obtain rfl := List.mem_singleton.mp hp
      exact ⟨le_rfl, le_rfl⟩

/-- A change of a post keeps its key. -/
theorem grown_map {f : Post → Post} (hlater : s.clock < time) (hb : Booked bot s)
    (hf : ∀ p, (f p).key = p.key ∧ (f p = p ∨ (f p).updateAt = time)) :
    Grown s time (s.posts.map f) := by
  have hkeys : (s.posts.map f).map Post.key = s.keys := by
    rw [List.map_map]
    exact List.map_congr_left fun p _ => (hf p).1
  refine ⟨hlater, ?_, ?_, ?_, ?_⟩
  · rw [hkeys]
    exact fun k hk => .inl hk
  · rw [hkeys]
    exact fun k hk => hk
  · rw [hkeys]
    exact hb.stamped.nodup
  · intro p hp
    obtain ⟨q, hq, rfl⟩ := List.mem_map.mp hp
    obtain ⟨hcu, huc⟩ := hb.stamped.le q hq
    obtain ⟨hkey, hsame | htime⟩ := hf q
    · rw [hsame]
      exact ⟨hcu, huc.trans hlater.le⟩
    · have hcreate : (f q).createAt = q.createAt := congrArg Key.createAt hkey
      omega

theorem stamp_sound {s' : Sys} (hg : s.clock < time → Grown s time posts) (hs : Sound bot s)
    (h : stamp s time posts = some s') : Sound bot s' := by
  unfold stamp at h
  split_ifs at h with hlater
  obtain rfl := Option.some.inj h
  exact sound_grown (hg hlater) hs

end Server

section Beginning
variable {bot : Bot} {s : Sys} {ch : String} {cursor : ℕ}

theorem due_beginAt_other {k : Key} (h : k.channel ≠ ch) :
    Due (beginAt s ch cursor) k ↔ Due s k := by
  unfold Due beginAt
  rw [Dict.get?_set_ne _ _ h]

/-- A channel without a cursor has nothing that was seen: its polling may begin anywhere. -/
theorem beginAt_sound (hb : Booked bot s) (hrest : ∀ ch, Resting s ch)
    (hnone : s.cursors.get? ch = none) (hle : cursor ≤ s.clock) :
    Booked bot (beginAt s ch cursor) ∧ ∀ ch', Resting (beginAt s ch cursor) ch' := by
  have hself : (beginAt s ch cursor).cursors.get? ch = some cursor := Dict.get?_set_self ..
  have hother : ∀ ch', ch' ≠ ch → (beginAt s ch cursor).cursors.get? ch' = s.cursors.get? ch' :=
    fun ch' h => Dict.get?_set_ne _ _ h
  refine ⟨?_, ?_⟩
  · obtain ⟨⟨hn, hstamps, hone, hcur⟩, hhandled, hnodup, hknown, hpast, hfin⟩ := hb
    refine ⟨⟨hn, hstamps, hone, ?_⟩, hhandled, hnodup, hknown, ?_, ?_⟩
    · intro ch' c hc
      by_cases heq : ch' = ch
      · rw [heq, hself] at hc
        exact Option.some.inj hc ▸ hle
      · exact hcur ch' c ((hother ch' heq).symm.trans hc)
    · intro x hx
      obtain ⟨c, hc, hxc⟩ := hpast x hx
      have hne : x.post.channel ≠ ch := by
        intro heq
        rw [heq, hnone] at hc
        cases hc
      exact ⟨c, (hother _ hne).trans hc, hxc⟩
    · intro ch' T hT
      obtain ⟨hTc, hsome, hseen⟩ := hfin ch' T hT
      have hne : ch' ≠ ch := fun heq => hsome (heq ▸ hnone)
      refine ⟨hTc, by rw [hother ch' hne]; exact hsome, fun k hk hkc hd hkT => ?_⟩
      exact hseen k hk hkc ((due_beginAt_other (hkc ▸ hne)).mp hd) hkT
  · intro ch' k hk hkc hd hunseen c hc
    by_cases heq : ch' = ch
    · subst heq
      obtain ⟨b, hbk, hlt⟩ := hd
      have hb' : (beginAt s ch' cursor).began.get? ch' = some cursor := Dict.get?_set_self ..
      rw [hkc, hb'] at hbk
      rw [hself] at hc
      obtain rfl := Option.some.inj hbk
      exact Option.some.inj hc ▸ hlt
    · rw [hother ch' heq] at hc
      exact hrest ch' k hk hkc ((due_beginAt_other (hkc ▸ heq)).mp hd) hunseen c hc

/-- Conversations that appear are read from their first post on. -/
theorem beginAll_sound {appeared : List String} (hb : Booked bot s) (hrest : ∀ ch, Resting s ch)
    (hnodup : appeared.Nodup) (hnone : ∀ ch ∈ appeared, s.cursors.get? ch = none) :
    Booked bot (appeared.foldl (fun s c => beginAt s c 1) s) ∧
      ∀ ch, Resting (appeared.foldl (fun s c => beginAt s c 1) s) ch := by
  induction appeared generalizing s with
  | nil => exact ⟨hb, hrest⟩
  | cons ch rest ih =>
    obtain ⟨hch, hnodup⟩ := List.nodup_cons.mp hnodup
    obtain ⟨hb', hrest'⟩ := beginAt_sound hb hrest (hnone ch (by simp)) hb.stamped.one
    refine ih hb' hrest' hnodup fun ch' hmem => ?_
    have hne : ch' ≠ ch := fun heq => hch (heq ▸ hmem)
    exact (Dict.get?_set_ne _ _ hne).trans (hnone ch' (by simp [hmem]))

theorem nodup_appeared (s : Sys) (look : Look) : (appeared s look).Nodup :=
  (List.nodup_dedup _).filter _

theorem latest_le (h : Stamped s) : latest s.posts ch ≤ s.clock := by
  unfold latest
  cases hlast : (s.posts.filter fun p => p.channel = ch && p.deleteAt = 0).getLast? with
  | none => exact Nat.zero_le _
  | some p =>
    have hmem : p ∈ s.posts := List.mem_of_mem_filter (List.mem_of_getLast? hlast)
    exact (h.le p hmem).2

/-- An answer has every new post that was not seen. -/
theorem reading_since (hb : Booked bot s) (hrest : ∀ ch, Resting s ch)
    (hc : s.cursors.get? ch = some cursor) :
    Reading s ch cursor s.clock (since s.posts ch cursor) := by
  have hmem : ∀ p, p ∈ since s.posts ch cursor ↔
      p ∈ s.posts ∧ p.channel = ch ∧ cursor < p.updateAt := by
    intro p
    simp [since]
  refine ⟨le_rfl, hb.stamped.cursor ch cursor hc, ⟨cursor, hc, hb.stamped.cursor ch cursor hc⟩,
    ?_, ?_, ?_, fun ch' _ => hrest ch'⟩
  · intro r hr
    obtain ⟨hposts, hrc, hru⟩ := (hmem r).mp hr
    obtain ⟨hcu, huc⟩ := hb.stamped.le r hposts
    have hkey : r.key ∈ s.keys := List.mem_map_of_mem hposts
    refine ⟨hrc, hcu, huc, hkey, fun hnew hseen => ?_⟩
    obtain ⟨x, hx, hid⟩ := List.mem_map.mp hseen
    have hsame : x.post.key = r.key := key_eq_of_id hb.stamped (hb.known x hx) hkey hid
    obtain ⟨d, hd, hle⟩ := hb.past x hx
    have hchannel : x.post.channel = ch := (congrArg Key.channel hsame).trans hrc
    have hcreate : x.post.createAt = r.createAt := congrArg Key.createAt hsame
    rw [hchannel, hc] at hd
    have hcd : cursor = d := Option.some.inj hd
    omega
  · have hids : (s.posts.map Post.id).Nodup := by
      have hn := hb.stamped.nodup
      simpa [Sys.keys, Post.key, Function.comp_def] using hn
    have hsub : ((s.posts.filter fun p => p.channel = ch && cursor < p.updateAt).map
        Post.id).Nodup := hids.sublist (List.filter_sublist.map Post.id)
    exact ((List.perm_insertionSort _ _).map Post.id).nodup_iff.mpr hsub
  · intro k hk hkc hd hunseen
    have hafter := hrest ch k hk hkc hd hunseen cursor hc
    obtain ⟨p, hp, rfl⟩ := List.mem_map.mp hk
    have hle := (hb.stamped.le p hp).1
    refine ⟨hafter, .inl (List.mem_map_of_mem (f := Post.id) ((hmem p).mpr ⟨hp, hkc, ?_⟩))⟩
    exact hafter.trans_le hle

end Beginning

/-- No thread fails to be read in the middle of a loop, and no conversation that has a cursor is
found as a new one. -/
def Steady (s : Sys) : Action → Prop
  | .looked (some look) =>
    s.channelsAt = 0 ∨ ∀ ch ∈ appeared s look, s.cursors.get? ch = none
  | .thread answered => answered = true
  | _ => True

instance decidableSteady (s : Sys) : ∀ a, Decidable (Steady s a)
  | .looked (some look) => inferInstanceAs (Decidable (_ ∨ ∀ ch ∈ appeared s look, _))
  | .thread answered => inferInstanceAs (Decidable (answered = true))
  | .looked none | .write .. | .edit .. | .delete .. | .poll _ | .fetched _ => isTrue trivial

section Steps
variable {bot : Bot} {s s' : Sys}

theorem setLook_sound {look : Look} (now : ℚ) (hb : Booked bot s) (hrest : ∀ ch, Resting s ch)
    (hsteady : Steady s (.looked (some look))) :
    Booked bot (setLook s look now) ∧ ∀ ch, Resting (setLook s look now) ch := by
  have hbegun : Booked bot (if s.channelsAt = 0 then s
      else (appeared s look).foldl (fun s c => beginAt s c 1) s) ∧
      ∀ ch, Resting (if s.channelsAt = 0 then s
        else (appeared s look).foldl (fun s c => beginAt s c 1) s) ch := by
    split_ifs with hfirst
    · exact ⟨hb, hrest⟩
    · have hnone := hsteady.resolve_left hfirst
      exact beginAll_sound hb hrest (nodup_appeared s look) hnone
  obtain ⟨⟨hstamped, hhandled, hnodup, hknown, hpast, hfin⟩, hrest⟩ := hbegun
  exact ⟨⟨⟨hstamped.nodup, hstamped.le, hstamped.one, hstamped.cursor⟩, hhandled, hnodup, hknown,
    hpast, hfin⟩, hrest⟩

theorem looked_sound {answer : Option Look} (h : Sound bot s) (hsteady : Steady s (.looked answer))
    (hs : step bot s (.looked answer) = some s') : Sound bot s' := by
  obtain ⟨hb, hpc⟩ := h
  unfold AtPc at hpc
  simp only [step] at hs
  split at hs
  · next now hcase =>
    obtain rfl := Option.some.inj hs
    rw [hcase] at hpc
    exact ⟨booked_pc hb .idle, hpc⟩
  · next now look hcase =>
    obtain rfl := Option.some.inj hs
    rw [hcase] at hpc
    obtain ⟨hb', hrest⟩ := setLook_sound now hb hpc hsteady
    exact nextChannel_sound hb' hrest _
  · cases hs

theorem fetched_sound {answer : Option Bool} (h : Sound bot s)
    (hs : step bot s (.fetched answer) = some s') : Sound bot s' := by
  obtain ⟨hb, hpc⟩ := h
  unfold AtPc at hpc
  simp only [step] at hs
  split at hs
  · next ch cursor todo hcase =>
    obtain rfl := Option.some.inj hs
    rw [hcase] at hpc
    exact ⟨booked_pc hb .idle, hpc.2⟩
  · next ch cursor todo hcase =>
    obtain rfl := Option.some.inj hs
    rw [hcase] at hpc
    exact nextChannel_sound hb hpc.2 todo
  · next ch todo hcase =>
    obtain rfl := Option.some.inj hs
    rw [hcase] at hpc
    obtain ⟨hb', hrest⟩ := beginAt_sound hb hpc.2 hpc.1 (latest_le hb.stamped)
    exact nextChannel_sound hb' hrest todo
  · next ch cursor todo hcase =>
    obtain rfl := Option.some.inj hs
    rw [hcase] at hpc
    exact readPosts_sound todo hb (reading_since hb hpc.2 hpc.1)
  · cases hs

theorem thread_sound {answered : Bool} (h : Sound bot s) (hsteady : answered = true)
    (hs : step bot s (.thread answered) = some s') : Sound bot s' := by
  obtain ⟨hb, hpc⟩ := h
  unfold AtPc at hpc
  simp only [step] at hs
  split at hs
  · next ch cursor taken post posts todo hcase =>
    rw [if_pos hsteady] at hs
    obtain rfl := Option.some.inj hs
    rw [hcase] at hpc
    obtain ⟨hr, hc, hw, ha⟩ := hpc
    obtain ⟨hb', hr'⟩ := settle_sound _ hb hr hc (selected_of_asked hw ha)
    exact readPosts_sound todo hb' hr'
  · cases hs

theorem sound_step {a : Action} (h : Sound bot s) (hsteady : Steady s a)
    (hs : step bot s a = some s') : Sound bot s' := by
  cases a with
  | write post time =>
    simp only [step] at hs
    split_ifs at hs with hid
    exact stamp_sound (fun hlater => grown_write hlater h.booked hid) h hs
  | edit id message time =>
    refine stamp_sound (fun hlater => grown_map hlater h.booked fun p => ?_) h hs
    split_ifs
    · exact ⟨rfl, .inr rfl⟩
    · exact ⟨rfl, .inl rfl⟩
  | delete id time =>
    refine stamp_sound (fun hlater => grown_map hlater h.booked fun p => ?_) h hs
    split_ifs
    · exact ⟨rfl, .inr rfl⟩
    · exact ⟨rfl, .inl rfl⟩
  | poll now =>
    obtain ⟨hb, hpc⟩ := h
    unfold AtPc at hpc
    simp only [step] at hs
    split at hs
    · next hcase =>
      rw [hcase] at hpc
      split_ifs at hs <;> obtain rfl := Option.some.inj hs
      · exact ⟨booked_pc hb (.looking now), hpc⟩
      · exact nextChannel_sound hb hpc _
    · cases hs
  | looked answer => exact looked_sound h hsteady hs
  | fetched answer => exact fetched_sound h hs
  | thread answered => exact thread_sound h hsteady hs

theorem sound_start (bot : Bot) (clock : ℕ) : Sound bot (start clock) := by
  refine ⟨⟨⟨List.nodup_nil, ?_, Nat.le_add_left 1 clock, ?_⟩, rfl, List.nodup_nil, ?_, ?_, ?_⟩, ?_⟩
  · simp [start]
  · simp [start]
  · simp [start]
  · simp [start]
  · simp [start]
  · intro ch k hk
    cases hk

end Steps

def someBot : Bot := ⟨"bot", fun message => message = "@bot", fun message => message = "@bot"⟩

def homeOnly : Look := ⟨some "c", true, []⟩

/-- The bot's channel is polled from its beginning on; the bot writes and someone replies. -/
def replied : List Action :=
  [.poll 1, .looked (some homeOnly), .fetched (some true),
   .write ⟨"r", "c", "bot", 0, 0, 0, "", "hello", "", false⟩ 10,
   .write ⟨"p", "c", "someone", 0, 0, 0, "", "thanks", "r", false⟩ 11,
   .poll 2, .fetched (some true)]

/-- A look that does not find the team lists no conversation; the next one finds an old one as
new, and its posts are handled again. -/
example : ((run (step someBot) (start 0)
    [.poll 1, .looked (some ⟨some "c", true, [("d", "D")]⟩), .fetched (some true),
     .fetched (some true), .write ⟨"p", "d", "someone", 0, 0, 0, "", "hi", "", false⟩ 10,
     .poll 2, .fetched (some true), .fetched (some true),
     .poll 70, .looked (some ⟨none, false, []⟩),
     .poll 140, .looked (some ⟨some "c", true, [("d", "D")]⟩), .fetched (some true),
     .fetched (some true)]).map fun s => s.handled.count "p") = some 2 := by
  decide +kernel

end PurdueAF.Mattermost

import PurdueAF.PixiLock

/-!
# Who holds the lock of the environment sync

What each operation does to the lock and to the process that makes it, and from it that
the lock has one owner in every run that looks at frozen heartbeats with care. What a
process saw before it takes a lock over is a fact about every run.
-/
namespace PurdueAF.PixiLock

open Machine

theorem live_eq_some {s : State} {t : ℕ} {p : Proc} :
    s.live t = some p ↔ s.procs[t]? = some p ∧ p.live = true := by
  simp [State.live, Option.filter_eq_some_iff]

/-- Nobody made, took or removed the directory; its heartbeat may have changed. -/
def Kept (now : ℕ) : Option LockDir → Option LockDir → Prop
  | none, l' => l' = none
  | some l, l' => ∃ m, l' = some m ∧ m.owner = l.owner ∧ (m.changed = l.changed ∨ m.changed = now)

theorem Kept.refl (now : ℕ) (l : Option LockDir) : Kept now l l := by
  cases l with
  | none => rfl
  | some l => exact ⟨l, rfl, rfl, .inl rfl⟩

/-- What an operation of process `t` makes of its state and of the lock. -/
inductive Did (s : State) (t : ℕ) (p : Proc) (o : Op) : Proc → Option LockDir → Prop
  | went {p' l'} (hown : p'.pc.owning → p.pc.owning) (htake : p'.pc.taking → p.pc.taking)
      (hbeat : p'.beat = p.beat) (hlock : Kept s.now s.lock l') : Did s t p o p' l'
  | made {p'} (hlock : s.lock = none) (htake : p'.pc.taking = false) (hbeat : p'.beat = s.now) :
      Did s t p o p' (some ⟨s.dirs, [], t, s.now⟩)
  | found {p'} (readable : Bool) (seen : Seen) (ho : o = .read readable)
      (hpc : p.pc = .read seen)
      (hfrozen : (frozen (nanoseconds lockFrozenSeconds) seen (s.heartbeatTs readable) s.now).2)
      (hown : p'.pc.owning = false) : Did s t p o p' s.lock
  | acquired {p'} (l l' : LockDir) (hpc : p.pc.owning ∨ p.pc.taking) (hlock : s.lock = some l)
      (htake : p'.pc.taking = false) (hbeat : p'.beat = s.now) (howner : l'.owner = t)
      (hchanged : l'.changed = s.now) : Did s t p o p' (some l')
  | beaten {p'} (l l' : LockDir) (hpc : p'.pc = p.pc) (hnot : p.pc.taking = false)
      (hlock : s.lock = some l)
      (hbeat : p'.beat = s.now) (howner : l'.owner = l.owner) (hchanged : l'.changed = s.now) :
      Did s t p o p' (some l')
  | removed {p' l'} (hpc : p.pc.owning) (hown : p'.pc.owning = false)
      (htake : p'.pc.taking = false) (hlock : ∀ l, l' = some l → s.lock = some l) :
      Did s t p o p' l'

/-- Process `t` is at `p'`, the lock is `l'`, and all else is as it was. -/
structure Moved (s : State) (t : ℕ) (p' : Proc) (l' : Option LockDir) (s' : State) : Prop where
  procs : s'.procs = s.procs.set t p'
  lock : s'.lock = l'
  now : s'.now = s.now

theorem kept_writeTmp (s : State) (p : Proc) (ts : ℚ) : Kept s.now s.lock (s.writeTmp p ts) := by
  unfold State.writeTmp
  cases s.lock with
  | none => rfl
  | some l => exact ⟨_, rfl, rfl, .inl rfl⟩

theorem kept_unlinkIn (s : State) (inode : ℕ) (name : FileName) :
    Kept s.now s.lock (s.unlinkIn inode name) := by
  unfold State.unlinkIn
  cases s.lock with
  | none => rfl
  | some l =>
    by_cases hi : l.inode = inode
    · by_cases hn : name = .heartbeat
      · exact ⟨_, rfl, by simp [hi], .inr (by simp [hi, hn])⟩
      · exact ⟨_, rfl, by simp [hi], .inl (by simp [hi, hn])⟩
    · exact ⟨_, rfl, by simp [hi], .inl (by simp [hi])⟩

theorem renameTmp_eq_some {s : State} {p : Proc} {l' : LockDir} (h : s.renameTmp p = some l') :
    ∃ l, s.lock = some l ∧ l'.owner = l.owner ∧ l'.changed = s.now := by
  obtain ⟨l, hl, h⟩ := Option.bind_eq_some_iff.mp h
  obtain ⟨payload, _, rfl⟩ := Option.map_eq_some_iff.mp h
  exact ⟨l, hl, rfl, rfl⟩

def Does (s : State) (t : ℕ) (p : Proc) (o : Op) (s' : State) : Prop :=
  ∃ p' l', p'.live = p.live ∧ Did s t p o p' l' ∧ Moved s t p' l' s'

theorem Moved.does {s s' : State} {t : ℕ} {p p' : Proc} {o : Op} {l' : Option LockDir}
    (hm : Moved s t p' l' s') (hlive : p'.live = p.live) (hd : Did s t p o p' l') :
    Does s t p o s' := ⟨p', l', hlive, hd, hm⟩

theorem does_put (s : State) (t : ℕ) {p p' : Proc} (o : Op) {l' : Option LockDir}
    (hlive : p'.live = p.live) (hown : p'.pc.owning → p.pc.owning)
    (htake : p'.pc.taking → p.pc.taking) (hbeat : p'.beat = p.beat) (hlock : Kept s.now s.lock l') :
    Does s t p o { s.put t p' with lock := l' } :=
  ⟨p', l', hlive, .went hown htake hbeat hlock, rfl, rfl, rfl⟩

theorem does_goto (s : State) (t : ℕ) (p : Proc) (o : Op) {pc : Pc}
    (hown : pc.owning → p.pc.owning) (htake : pc.taking → p.pc.taking) :
    Does s t p o (s.goto t p pc) :=
  does_put s t o rfl hown htake rfl (Kept.refl _ _)

theorem does_write {s s' : State} {t : ℕ} {p : Proc} {o : Op} {ts : ℚ}
    (h : s.write t p ts = some s') : Does s t p o s' := by
  unfold State.write at h
  have hkept := kept_writeTmp s p ts
  split at h
  · rename_i pc hpc
    have hsame : (pc.owning = true → p.pc.owning = true) ∧ (pc.taking = true → p.pc.taking = true) := by
      cases hp : p.pc <;> rw [hp] at hpc <;> cases hpc <;> simp [Pc.owning, Pc.taking]
    split at h
    · rename_i l hl
      obtain rfl := Option.some.inj h
      rw [hl] at hkept
      exact does_put s t o rfl hsame.1 hsame.2 rfl hkept
    · obtain rfl := Option.some.inj h
      exact does_goto s t p o (by simp [Pc.owning]) (by simp [Pc.taking])
  · split_ifs at h with hbeats
    split at h
    · rename_i l hl
      obtain rfl := Option.some.inj h
      rw [hl] at hkept
      exact does_put s t o rfl id id rfl hkept
    · obtain rfl := Option.some.inj h
      exact does_put s t o rfl id id rfl (Kept.refl _ _)

theorem not_taking_of_beats {pc : Pc} (h : pc.beats = true) : pc.taking = false := by
  cases pc <;> first | rfl | cases h

theorem does_rename {s s' : State} {t : ℕ} {p : Proc} {o : Op} (h : s.rename t p = some s') :
    Does s t p o s' := by
  unfold State.rename at h
  split_ifs at h with hacquire hbeats
  · split at h
    · rename_i l' hl'
      obtain rfl := Option.some.inj h
      obtain ⟨l, hl, _, hchanged⟩ := renameTmp_eq_some hl'
      have hpc : p.pc.owning = true ∨ p.pc.taking = true :=
        hacquire.imp (fun e => by simp [e, Pc.owning]) fun e => by simp [e, Pc.taking]
      exact Moved.does ⟨rfl, rfl, rfl⟩ rfl (.acquired l _ hpc hl rfl rfl rfl hchanged)
    · obtain rfl := Option.some.inj h
      exact does_goto s t p o (by simp [Pc.owning]) (by simp [Pc.taking])
  · split at h
    · rename_i l' hl'
      obtain rfl := Option.some.inj h
      obtain ⟨l, hl, howner, hchanged⟩ := renameTmp_eq_some hl'
      have hnot := not_taking_of_beats hbeats.1
      exact Moved.does ⟨rfl, rfl, rfl⟩ rfl (.beaten l l' rfl hnot hl rfl howner hchanged)
    · obtain rfl := Option.some.inj h
      exact does_put s t o rfl id id rfl (Kept.refl _ _)

theorem does_fail {s s' : State} {t : ℕ} {p : Proc} {o : Op} (h : s.fail t p = some s') :
    Does s t p o s' := by
  unfold State.fail at h
  split at h
  all_goals cases h
  case h_6 =>
    exact does_put s t o rfl id id rfl (Kept.refl _ _)
  all_goals
    rename_i hpc
    exact does_goto s t p o (by simp [hpc, Pc.owning]) (by simp [Pc.taking])

theorem does_perform {s s' : State} {t : ℕ} {p : Proc} {o : Op} (h : s.perform t p o = some s') :
    Does s t p o s' := by
  cases o with
  | mkdir =>
    simp only [State.perform] at h
    split at h
    · rename_i hlock
      obtain rfl := Option.some.inj h
      exact Moved.does ⟨rfl, rfl, rfl⟩ rfl (.made hlock rfl rfl)
    · obtain rfl := Option.some.inj h
      exact does_goto s t p _ (by simp [Pc.owning]) (by simp [Pc.taking])
    · cases h
  | read readable =>
    simp only [State.perform] at h
    split at h
    · rename_i seen hpc
      split at h
      · rename_i seen' hfound
        obtain rfl := Option.some.inj h
        exact Moved.does ⟨rfl, rfl, rfl⟩ rfl (.found readable seen rfl hpc (by rw [hfound]) rfl)
      · obtain rfl := Option.some.inj h
        exact does_goto s t p _ (by simp [Pc.owning]) (by simp [Pc.taking])
    · cases h
  | wake =>
    simp only [State.perform] at h
    split at h
    · split_ifs at h
      obtain rfl := Option.some.inj h
      exact does_goto s t p _ (by simp [Pc.owning]) (by simp [Pc.taking])
    · cases h
  | write ts => exact does_write h
  | rename => exact does_rename h
  | release =>
    simp only [State.perform] at h
    split_ifs at h with hpc
    obtain rfl := Option.some.inj h
    exact does_goto s t p _ (by simp [hpc, Pc.owning]) (by simp [Pc.taking])
  | openDir =>
    simp only [State.perform] at h
    split at h
    · rename_i l hpc _
      obtain rfl := Option.some.inj h
      exact does_goto s t p _ (by simp [hpc, Pc.owning]) (by simp [Pc.taking])
    · obtain rfl := Option.some.inj h
      exact does_goto s t p _ (by simp [Pc.owning]) (by simp [Pc.taking])
    · cases h
  | list names =>
    simp only [State.perform, State.list] at h
    split at h
    · rename_i inode hpc
      split_ifs at h
      obtain rfl := Option.some.inj h
      exact does_goto s t p _ (by simp [hpc, Pc.owning]) (by simp [Pc.taking])
    · cases h
  | unlink =>
    simp only [State.perform] at h
    split at h
    · rename_i inode name names hpc
      obtain rfl := Option.some.inj h
      exact does_put s t _ rfl (by simp [hpc, Pc.owning]) (by simp [Pc.taking]) rfl
        (kept_unlinkIn s inode name)
    · cases h
  | rmdir =>
    simp only [State.perform] at h
    split at h
    · rename_i inode hpc
      obtain rfl := Option.some.inj h
      have hrest (l : LockDir) (hl : (s.lock.filter fun l => l.files ≠ []) = some l) :
          s.lock = some l := (Option.filter_eq_some_iff.mp hl).1
      exact Moved.does ⟨rfl, rfl, rfl⟩ rfl (.removed (by simp [hpc, Pc.owning]) rfl rfl hrest)
    · cases h
  | fail => exact does_fail h

/-- The lock belongs to the live process that owns it, and while a process is about to
take it over, nobody owns it and nobody else is about to. -/
structure Sound (s : State) : Prop where
  owned : ∀ t p, s.live t = some p → p.pc.owning →
    ∃ l, s.lock = some l ∧ l.owner = t ∧ p.beat ≤ l.changed
  there : ∀ t p, s.live t = some p → p.pc.taking → s.lock ≠ none
  idle : ∀ t p, s.live t = some p → p.pc.taking → ∀ j q, s.live j = some q → q.pc.owning = false
  alone : ∀ t p, s.live t = some p → p.pc.taking → ∀ j q, s.live j = some q → q.pc.taking → j = t
  past : ∀ l, s.lock = some l → l.changed ≤ s.now

theorem Sound.owner_unique {s : State} (h : Sound s) {t t' : ℕ} {p p' : Proc}
    (ht : s.live t = some p) (ht' : s.live t' = some p') (hp : p.pc.owning = true)
    (hp' : p'.pc.owning = true) : t = t' := by
  obtain ⟨l, hl, hown, _⟩ := h.owned t p ht hp
  obtain ⟨l', hl', hown', _⟩ := h.owned t' p' ht' hp'
  obtain rfl : l = l' := Option.some.inj (hl.symm.trans hl')
  rw [← hown, ← hown']

theorem live_moved {s s' : State} {t : ℕ} {p p' : Proc} {l' : Option LockDir}
    (hm : Moved s t p' l' s') (ht : s.live t = some p) (hlive : p'.live = p.live) (j : ℕ) :
    s'.live j = if t = j then some p' else s.live j := by
  obtain ⟨hget, hl⟩ := live_eq_some.mp ht
  have hlt : t < s.procs.length := by
    by_contra hge
    simp [List.getElem?_eq_none (Nat.not_lt.mp hge)] at hget
  unfold State.live
  rw [hm.procs, List.getElem?_set]
  split_ifs with hj
  · simp [hlive, hl]
  · rfl

/-- The process that moved owns the lock if it says so, and the others still do. -/
theorem Sound.moved {s s' : State} (h : Sound s) {t : ℕ} {p p' : Proc} {l' : Option LockDir}
    (hm : Moved s t p' l' s') (ht : s.live t = some p) (hlive : p'.live = p.live)
    (hself : p'.pc.owning → ∃ l, l' = some l ∧ l.owner = t ∧ p'.beat ≤ l.changed)
    (hothers : ∀ j q, j ≠ t → s.live j = some q → q.pc.owning →
      p'.pc.taking = false ∧ ∃ l, l' = some l ∧ l.owner = j ∧ q.beat ≤ l.changed)
    (htakers : ∀ j q, j ≠ t → s.live j = some q → q.pc.taking →
      l' ≠ none ∧ p'.pc.owning = false ∧ p'.pc.taking = false)
    (hthere : p'.pc.taking → l' ≠ none) (hpast : ∀ l, l' = some l → l.changed ≤ s.now) :
    Sound s' := by
  have hat := live_moved hm ht hlive
  have hsplit (j : ℕ) (q : Proc) (hj : s'.live j = some q) :
      (j = t ∧ q = p') ∨ (j ≠ t ∧ s.live j = some q) := by
    rw [hat] at hj
    split_ifs at hj with htj
    · exact .inl ⟨htj.symm, (Option.some.inj hj).symm⟩
    · exact .inr ⟨Ne.symm htj, hj⟩
  have hexcl : p'.pc.taking = true → p'.pc.owning = false := by
    cases p'.pc <;> simp [Pc.taking, Pc.owning]
  constructor
  · intro j q hj hq
    rw [hm.lock]
    rcases hsplit j q hj with ⟨rfl, rfl⟩ | ⟨hjt, hj⟩
    · exact hself hq
    · exact (hothers j q hjt hj hq).2
  · intro j q hj hq
    rw [hm.lock]
    rcases hsplit j q hj with ⟨rfl, rfl⟩ | ⟨hjt, hj⟩
    · exact hthere hq
    · exact (htakers j q hjt hj hq).1
  · intro j q hj hq k r hk
    rcases hsplit j q hj with ⟨rfl, rfl⟩ | ⟨hjt, hj⟩ <;>
      rcases hsplit k r hk with ⟨rfl, rfl⟩ | ⟨hkt, hk⟩
    · exact hexcl hq
    · by_contra hown
      have hnot := (hothers k r hkt hk (by simpa using hown)).1
      simp [hq] at hnot
    · exact (htakers j q hjt hj hq).2.1
    · exact h.idle j q hj hq k r hk
  · intro j q hj hq k r hk hr
    rcases hsplit j q hj with ⟨rfl, rfl⟩ | ⟨hjt, hj⟩ <;>
      rcases hsplit k r hk with ⟨rfl, rfl⟩ | ⟨hkt, hk⟩
    · rfl
    · have hnot := (htakers k r hkt hk hr).2.2
      simp [hq] at hnot
    · have hnot := (htakers j q hjt hj hq).2.2
      simp [hr] at hnot
    · exact h.alone j q hj hq k r hk hr
  · intro l hl
    rw [hm.now]
    exact hpast l (hm.lock ▸ hl)

theorem Kept.later {now : ℕ} {l : LockDir} {l' : Option LockDir} (h : Kept now (some l) l')
    (hpast : l.changed ≤ now) :
    ∃ m, l' = some m ∧ m.owner = l.owner ∧ l.changed ≤ m.changed ∧ m.changed ≤ now := by
  obtain ⟨m, hm, howner, hchanged⟩ := h
  refine ⟨m, hm, howner, ?_, ?_⟩ <;> omega

theorem Sound.went {s s' : State} (h : Sound s) {t : ℕ} {p p' : Proc} {l' : Option LockDir}
    (hm : Moved s t p' l' s') (ht : s.live t = some p) (hlive : p'.live = p.live)
    (hown : p'.pc.owning → p.pc.owning) (htake : p'.pc.taking → p.pc.taking)
    (hbeat : p'.beat = p.beat) (hlock : Kept s.now s.lock l') : Sound s' := by
  have hkeep (l : LockDir) (hl : s.lock = some l) :
      ∃ m, l' = some m ∧ m.owner = l.owner ∧ l.changed ≤ m.changed := by
    rw [hl] at hlock
    obtain ⟨m, hm', howner, hle, _⟩ := hlock.later (h.past l hl)
    exact ⟨m, hm', howner, hle⟩
  have hthere (hne : s.lock ≠ none) : l' ≠ none := by
    obtain ⟨l, hl⟩ := Option.ne_none_iff_exists'.mp hne
    obtain ⟨m, hm', _⟩ := hkeep l hl
    simp [hm']
  apply h.moved hm ht hlive
  · intro hp'
    obtain ⟨l, hl, howner, hle⟩ := h.owned t p ht (hown hp')
    obtain ⟨m, hm', howner', hle'⟩ := hkeep l hl
    exact ⟨m, hm', howner'.trans howner, by omega⟩
  · intro j q hj hq hqown
    obtain ⟨l, hl, howner, hle⟩ := h.owned j q hq hqown
    obtain ⟨m, hm', howner', hle'⟩ := hkeep l hl
    refine ⟨?_, m, hm', howner'.trans howner, by omega⟩
    by_contra htaking
    have hnot := h.idle t p ht (htake (by simpa using htaking)) j q hq
    simp [hqown] at hnot
  · intro j q hj hq hqtake
    refine ⟨hthere (h.there j q hq hqtake), ?_, ?_⟩
    · by_contra howning
      have hnot := h.idle j q hq hqtake t p ht
      simp [hown (by simpa using howning)] at hnot
    · by_contra htaking
      exact hj (h.alone t p ht (htake (by simpa using htaking)) j q hq hqtake)
  · intro hp'
    exact hthere (h.there t p ht (htake hp'))
  · intro m hm'
    cases hl : s.lock with
    | none =>
      rw [hl] at hlock
      simp [show l' = none from hlock] at hm'
    | some l =>
      rw [hl] at hlock
      obtain ⟨m', hm'', _, _, hle⟩ := hlock.later (h.past l hl)
      obtain rfl : m' = m := Option.some.inj (hm''.symm.trans hm')
      exact hle

theorem Sound.made {s s' : State} (h : Sound s) {t : ℕ} {p p' : Proc} {l : LockDir}
    (hm : Moved s t p' (some l) s') (ht : s.live t = some p) (hlive : p'.live = p.live)
    (hlock : s.lock = none) (htake : p'.pc.taking = false) (hbeat : p'.beat = s.now)
    (howner : l.owner = t) (hchanged : l.changed = s.now) : Sound s' := by
  apply h.moved hm ht hlive
  · intro _
    exact ⟨l, rfl, howner, by omega⟩
  · intro j q _ hq hown
    obtain ⟨m, hm', _⟩ := h.owned j q hq hown
    simp [hlock] at hm'
  · intro j q _ hq htaking
    exact absurd hlock (h.there j q hq htaking)
  · simp [htake]
  · intro m hm'
    obtain rfl := Option.some.inj hm'
    omega

theorem Sound.acquired {s s' : State} (h : Sound s) {t : ℕ} {p p' : Proc} {l : LockDir}
    (hm : Moved s t p' (some l) s') (ht : s.live t = some p) (hlive : p'.live = p.live)
    (hpc : p.pc.owning ∨ p.pc.taking) (htake : p'.pc.taking = false) (hbeat : p'.beat = s.now)
    (howner : l.owner = t) (hchanged : l.changed = s.now) : Sound s' := by
  -- nobody else owns the lock or is about to take it
  have hnone (j : ℕ) (q : Proc) (hj : j ≠ t) (hq : s.live j = some q) :
      q.pc.owning = false ∧ q.pc.taking = false := by
    rcases hpc with hown | htaking
    · constructor
      · by_contra hne
        exact hj (h.owner_unique hq ht (by simpa using hne) hown)
      · by_contra hne
        have hnot := h.idle j q hq (by simpa using hne) t p ht
        simp [hown] at hnot
    · constructor
      · exact h.idle t p ht htaking j q hq
      · by_contra hne
        exact hj (h.alone t p ht htaking j q hq (by simpa using hne))
  apply h.moved hm ht hlive
  · intro _
    exact ⟨l, rfl, howner, by omega⟩
  · intro j q hj hq hown
    simp [(hnone j q hj hq).1] at hown
  · intro j q hj hq htaking
    simp [(hnone j q hj hq).2] at htaking
  · simp [htake]
  · intro m hm'
    obtain rfl := Option.some.inj hm'
    omega

theorem Sound.beaten {s s' : State} (h : Sound s) {t : ℕ} {p p' : Proc} {l l' : LockDir}
    (hm : Moved s t p' (some l') s') (ht : s.live t = some p) (hlive : p'.live = p.live)
    (hpc : p'.pc = p.pc) (hnot : p.pc.taking = false) (hlock : s.lock = some l)
    (hbeat : p'.beat = s.now) (howner : l'.owner = l.owner) (hchanged : l'.changed = s.now) :
    Sound s' := by
  have hpast := h.past l hlock
  apply h.moved hm ht hlive
  · intro hown
    obtain ⟨m, hm', hmo, _⟩ := h.owned t p ht (hpc ▸ hown)
    obtain rfl : l = m := Option.some.inj (hlock.symm.trans hm')
    exact ⟨l', rfl, howner.trans hmo, by omega⟩
  · intro j q _ hq hown
    obtain ⟨m, hm', hmo, hle⟩ := h.owned j q hq hown
    obtain rfl : l = m := Option.some.inj (hlock.symm.trans hm')
    exact ⟨hpc ▸ hnot, l', rfl, howner.trans hmo, by omega⟩
  · intro j q _ hq htaking
    exact ⟨by simp, hpc ▸ h.idle j q hq htaking t p ht, hpc ▸ hnot⟩
  · simp
  · intro m hm'
    obtain rfl := Option.some.inj hm'
    omega

theorem Sound.removed {s s' : State} (h : Sound s) {t : ℕ} {p p' : Proc} {l' : Option LockDir}
    (hm : Moved s t p' l' s') (ht : s.live t = some p) (hlive : p'.live = p.live)
    (hpc : p.pc.owning) (hown : p'.pc.owning = false) (htake : p'.pc.taking = false)
    (hpast : ∀ l, l' = some l → l.changed ≤ s.now) : Sound s' := by
  apply h.moved hm ht hlive
  · simp [hown]
  · intro j q hj hq hqown
    exact absurd (h.owner_unique hq ht hqown hpc) hj
  · intro j q _ hq htaking
    have hnot := h.idle j q hq htaking t p ht
    simp [hpc] at hnot
  · simp [htake]
  · exact hpast

theorem Sound.found {s s' : State} (h : Sound s) {t : ℕ} {p p' : Proc}
    (hm : Moved s t p' s.lock s') (ht : s.live t = some p) (hlive : p'.live = p.live)
    (hown : p'.pc.owning = false) (hthere : s.lock ≠ none)
    (hnone : ∀ j q, s.live j = some q → q.pc.owning = false ∧ q.pc.taking = false) : Sound s' := by
  apply h.moved hm ht hlive
  · simp [hown]
  · intro j q _ hq hqown
    simp [(hnone j q hq).1] at hqown
  · intro j q _ hq htaking
    simp [(hnone j q hq).2] at htaking
  · exact fun _ => hthere
  · exact h.past

/-- A heartbeat that has not changed for the threshold is nobody's who is alive. -/
theorem Sound.dead {s : State} (h : Sound s) {t : ℕ} {readable : Bool} {a : Action}
    (hf : Refreshed s a) (hc : Careful s (.op t (.read readable)))
    (hfinds : s.finds t readable = true) : s.lock ≠ none ∧
      ∀ j q, s.live j = some q → q.pc.owning = false ∧ q.pc.taking = false := by
  obtain ⟨⟨l, hl, hold⟩, hall⟩ := hc hfinds
  have hlock : s.lock = some l := hl
  refine ⟨by simp [hlock], fun j q hq => ?_⟩
  obtain ⟨hget, hlive⟩ := live_eq_some.mp hq
  have hmem : q ∈ s.procs := List.mem_of_getElem? hget
  obtain ⟨htake, hturn⟩ := hall q hmem hlive
  refine ⟨?_, htake⟩
  by_contra hne
  have hown : q.pc.owning = true := by simpa using hne
  have hfresh : s.fresh q = true := by
    rcases hturn hown with hh | hh
    · exact hf q hmem hlive hh
    · exact hh
  have hbeat : s.now ≤ q.beat + nanoseconds lockFrozenSeconds := by
    simpa [State.fresh] using hfresh
  obtain ⟨l', hl', _, hle⟩ := h.owned j q hq hown
  obtain rfl : l = l' := Option.some.inj (hlock.symm.trans hl')
  omega

theorem finds_of_frozen {s : State} {t : ℕ} {p : Proc} {readable : Bool} {seen : Seen}
    (ht : s.live t = some p) (hpc : p.pc = .read seen)
    (hfrozen : (frozen (nanoseconds lockFrozenSeconds) seen (s.heartbeatTs readable) s.now).2) :
    s.finds t readable = true := by
  simp only [State.finds, ht, hpc]
  exact hfrozen

theorem Sound.perform {s s' : State} (h : Sound s) {t : ℕ} {p : Proc} {o : Op}
    (hf : Refreshed s (.op t o)) (hc : Careful s (.op t o)) (ht : s.live t = some p)
    (hs : s.perform t p o = some s') : Sound s' := by
  obtain ⟨p', l', hlive, hdid, hm⟩ := does_perform hs
  cases hdid with
  | went hown htake hbeat hlock => exact h.went hm ht hlive hown htake hbeat hlock
  | made hlock htake hbeat => exact h.made hm ht hlive hlock htake hbeat rfl rfl
  | found readable seen ho hpc hfrozen hown =>
    subst ho
    obtain ⟨hthere, hnone⟩ := h.dead hf hc (finds_of_frozen ht hpc hfrozen)
    exact h.found hm ht hlive hown hthere hnone
  | acquired l l' hpc _ htake hbeat howner hchanged =>
    exact h.acquired hm ht hlive hpc htake hbeat howner hchanged
  | beaten l l' hpc hnot hlock hbeat howner hchanged =>
    exact h.beaten hm ht hlive hpc hnot hlock hbeat howner hchanged
  | removed hpc hown htake hlock =>
    exact h.removed hm ht hlive hpc hown htake fun l hl => h.past l (hlock l hl)

/-- Where every live process was one already, in the same place, the lock is as sound. -/
theorem Sound.fewer {s s' : State} (h : Sound s) (hlock : s'.lock = s.lock)
    (hnow : s.now ≤ s'.now)
    (hlive : ∀ j q, s'.live j = some q → s.live j = some q ∨
      (q.pc.owning = false ∧ q.pc.taking = false)) : Sound s' := by
  have hback (j : ℕ) (q : Proc) (hj : s'.live j = some q) (hq : q.pc.owning ∨ q.pc.taking) :
      s.live j = some q := by
    rcases hlive j q hj with hj | ⟨hown, htake⟩
    · exact hj
    · simp [hown, htake] at hq
  constructor
  · intro j q hj hq
    rw [hlock]
    exact h.owned j q (hback j q hj (.inl hq)) hq
  · intro j q hj hq
    rw [hlock]
    exact h.there j q (hback j q hj (.inr hq)) hq
  · intro j q hj hq k r hk
    rcases hlive k r hk with hk | ⟨hown, _⟩
    · exact h.idle j q (hback j q hj (.inr hq)) hq k r hk
    · exact hown
  · intro j q hj hq k r hk hr
    exact h.alone j q (hback j q hj (.inr hq)) hq k r (hback k r hk (.inr hr)) hr
  · intro l hl
    exact (h.past l (hlock ▸ hl)).trans hnow

theorem live_append {s : State} {p q : Proc} {j : ℕ}
    (h : State.live { s with procs := s.procs ++ [p] } j = some q) : s.live j = some q ∨ q = p := by
  obtain ⟨hget, hlive⟩ := live_eq_some.mp h
  rcases Nat.lt_or_ge j s.procs.length with hlt | hge
  · left
    rw [List.getElem?_append_left hlt] at hget
    exact live_eq_some.mpr ⟨hget, hlive⟩
  · right
    rw [List.getElem?_append_right hge, List.getElem?_singleton] at hget
    split_ifs at hget
    exact (Option.some.inj hget).symm

theorem live_crash {s : State} {t j : ℕ} {p q : Proc}
    (h : (s.put t { p with live := false }).live j = some q) : s.live j = some q := by
  obtain ⟨hget, hlive⟩ := live_eq_some.mp h
  simp only [State.put, List.getElem?_set] at hget
  split_ifs at hget with htj hlt
  · obtain rfl := Option.some.inj hget
    cases hlive
  · exact live_eq_some.mpr ⟨hget, hlive⟩

theorem sound_step {s s' : State} {a : Action} (h : Sound s) (hf : Refreshed s a)
    (hc : Careful s a) (hs : step s a = some s') : Sound s' := by
  cases a with
  | start host pid =>
    obtain rfl := Option.some.inj hs
    refine h.fewer rfl (le_refl _) fun j q hj => ?_
    rcases live_append hj with hj | rfl
    · exact .inl hj
    · exact .inr ⟨rfl, rfl⟩
  | op t o =>
    obtain ⟨p, ht, hs⟩ := Option.bind_eq_some_iff.mp hs
    exact h.perform hf hc ht hs
  | crash t =>
    obtain ⟨p, _, rfl⟩ := Option.map_eq_some_iff.mp hs
    exact h.fewer rfl (le_refl _) fun j q hj => .inl (live_crash hj)
  | tick d =>
    obtain rfl := Option.some.inj hs
    exact h.fewer rfl (Nat.le_add_right _ _) fun j q hj => .inl hj

theorem sound_initial : Sound initial := by
  constructor <;> simp [initial, State.live]

theorem owning_of_inside {pc : Pc} (h : pc.inside = true) : pc.owning = true := by
  cases pc <;> first | rfl | cases h

/-- Only a process in `release_lock` unlinks and removes directories. -/
theorem owning_of_release {s s' : State} {t : ℕ} {p : Proc} {o : Op} (ho : o = .unlink ∨ o = .rmdir)
    (h : s.perform t p o = some s') : p.pc.owning = true := by
  rcases ho with rfl | rfl <;> simp only [State.perform] at h <;> split at h
  · rename_i hpc
    simp [hpc, Pc.owning]
  · cases h
  · rename_i hpc
    simp [hpc, Pc.owning]
  · cases h

theorem Sound.exclusive {s : State} (h : Sound s) : Exclusive s := by
  constructor
  · intro t t' p p' ht ht' hp hp'
    exact h.owner_unique ht ht' (owning_of_inside hp) (owning_of_inside hp')
  · intro t o s' ho hs _
    obtain ⟨p, ht, hs⟩ := Option.bind_eq_some_iff.mp hs
    obtain ⟨l, hl, howner, _⟩ := h.owned t p ht (owning_of_release ho hs)
    exact ⟨l, hl, howner⟩

/-- What the observer remembers of the looks of its process. -/
def Remembers (L : List Look) : Seen → Prop
  | none => True
  | some (ts, first) => ∃ before look after, L = before ++ look :: after ∧ look.time = first ∧
      look.ts = ts ∧ ∀ k ∈ after, k.ts = ts

/-- What the looks of a process were, from where it is. -/
def Tells (L : List Look) : Pc → Prop
  | .mkdir seen | .read seen | .asleep seen _ => Remembers L seen
  | .take | .takeTmp => ∃ (before : List Look) (first last : Look) (between : List Look),
      L = before ++ first :: (between ++ [last]) ∧ (∀ k ∈ between ++ [last], k.ts = first.ts) ∧
      first.time + nanoseconds lockFrozenSeconds < last.time
  | _ => True

/-- The observer after one more look: it remembers it, or it has seen the same for long. -/
theorem tells_frozen {L : List Look} {seen : Seen} (h : Remembers L seen) (look : Look) :
    match frozen (nanoseconds lockFrozenSeconds) seen look.ts look.time with
    | (_, true) => Tells (L ++ [look]) .take
    | (seen', false) => Remembers (L ++ [look]) seen' := by
  have hfresh : Remembers (L ++ [look]) (some (look.ts, look.time)) :=
    ⟨L, look, [], rfl, rfl, rfl, by simp⟩
  cases seen with
  | none => exact hfresh
  | some e =>
    obtain ⟨ts, first⟩ := e
    by_cases hts : ts = look.ts
    · obtain ⟨before, first', after, hL, htime, hfirst, hafter⟩ := h
      have hsame (k : Look) (hk : k ∈ after ++ [look]) : k.ts = first'.ts := by
        rcases List.mem_append.mp hk with hk | hk
        · rw [hafter k hk, hfirst]
        · rw [List.mem_singleton.mp hk, hfirst, hts]
      have hsnoc : L ++ [look] = before ++ first' :: (after ++ [look]) := by simp [hL]
      by_cases hlong : nanoseconds lockFrozenSeconds < look.time - first
      · simp only [frozen, hts, ne_eq, not_true_eq_false, if_false, hlong, decide_true]
        exact ⟨before, first', look, after, hsnoc, hsame, by omega⟩
      · simp only [frozen, hts, ne_eq, not_true_eq_false, if_false, hlong, decide_false]
        exact ⟨before, first', after ++ [look], hsnoc, htime, hfirst.trans hts,
          fun k hk => (hsame k hk).trans (hfirst.trans hts)⟩
    · simp only [frozen, ne_eq, hts, not_false_eq_true, if_true]
      exact hfresh

/-- The process moved to where its looks still tell what they told. -/
def Seeing (s : State) (t : ℕ) (p : Proc) (o : Op) (s' : State) : Prop :=
  ∃ p', s'.procs = s.procs.set t p' ∧
    ∀ L, Tells L p.pc → Tells (L ++ looks s (.op t o)) p'.pc

theorem seeing_put {s s' : State} {t : ℕ} {p : Proc} {o : Op} (p' : Proc)
    (hs : s'.procs = s.procs.set t p') (ho : looks s (.op t o) = [])
    (htells : ∀ L, Tells L p.pc → Tells L p'.pc) : Seeing s t p o s' :=
  ⟨p', hs, fun L hL => by rw [ho, List.append_nil]; exact htells L hL⟩

theorem seeing_write {s s' : State} {t : ℕ} {p : Proc} {ts : ℚ}
    (h : s.write t p ts = some s') : Seeing s t p (.write ts) s' := by
  unfold State.write at h
  split at h
  · rename_i pc hpc
    have htells (L : List Look) (hL : Tells L p.pc) : Tells L pc := by
      cases hp : p.pc <;> rw [hp] at hpc hL <;> cases hpc
      · trivial
      · exact hL
    split at h
    · obtain rfl := Option.some.inj h
      exact seeing_put _ rfl rfl htells
    · obtain rfl := Option.some.inj h
      exact seeing_put _ rfl rfl fun _ _ => trivial
  · split_ifs at h
    split at h
    all_goals
      obtain rfl := Option.some.inj h
      exact seeing_put _ rfl rfl fun _ hL => hL

theorem seeing_rename {s s' : State} {t : ℕ} {p : Proc} (h : s.rename t p = some s') :
    Seeing s t p .rename s' := by
  unfold State.rename at h
  split_ifs at h
  · split at h
    all_goals
      obtain rfl := Option.some.inj h
      exact seeing_put _ rfl rfl fun _ _ => trivial
  · split at h
    all_goals
      obtain rfl := Option.some.inj h
      exact seeing_put _ rfl rfl fun _ hL => hL

theorem seeing_read {s s' : State} {t : ℕ} {p : Proc} {readable : Bool} (ht : s.live t = some p)
    (h : s.perform t p (.read readable) = some s') : Seeing s t p (.read readable) s' := by
  simp only [State.perform] at h
  split at h
  · rename_i seen hpc
    have hlooks : looks s (.op t (.read readable)) = [⟨t, s.now, s.heartbeatTs readable⟩] := by
      simp [looks, ht, hpc]
    have hremembers (L : List Look) (hL : Tells L p.pc) : Remembers L seen := by
      rwa [hpc] at hL
    have htells (L : List Look) (hL : Tells L p.pc) :=
      tells_frozen (hremembers L hL) ⟨t, s.now, s.heartbeatTs readable⟩
    split at h
    all_goals
      rename_i hfrozen
      obtain rfl := Option.some.inj h
      refine ⟨_, rfl, fun L hL => ?_⟩
      rw [hlooks]
      have hnext := htells L hL
      simp only [hfrozen] at hnext
      exact hnext
  · cases h

theorem seeing_perform {s s' : State} {t : ℕ} {p : Proc} {o : Op} (ht : s.live t = some p)
    (h : s.perform t p o = some s') : Seeing s t p o s' := by
  cases o with
  | read readable => exact seeing_read ht h
  | write ts => exact seeing_write h
  | rename => exact seeing_rename h
  | mkdir =>
    simp only [State.perform] at h
    split at h
    · obtain rfl := Option.some.inj h
      exact seeing_put _ rfl rfl fun _ _ => trivial
    · rename_i hpc _
      obtain rfl := Option.some.inj h
      exact seeing_put _ rfl rfl fun L hL => by rwa [hpc] at hL
    · cases h
  | wake =>
    simp only [State.perform] at h
    split at h
    · rename_i hpc
      split_ifs at h
      obtain rfl := Option.some.inj h
      exact seeing_put _ rfl rfl fun L hL => by rwa [hpc] at hL
    · cases h
  | release =>
    simp only [State.perform] at h
    split_ifs at h
    obtain rfl := Option.some.inj h
    exact seeing_put _ rfl rfl fun _ _ => trivial
  | openDir =>
    simp only [State.perform] at h
    split at h
    all_goals cases h
    all_goals exact seeing_put _ rfl rfl fun _ _ => trivial
  | list names =>
    simp only [State.perform, State.list] at h
    split at h
    · split_ifs at h
      obtain rfl := Option.some.inj h
      exact seeing_put _ rfl rfl fun _ _ => trivial
    · cases h
  | unlink =>
    simp only [State.perform] at h
    split at h
    · obtain rfl := Option.some.inj h
      exact seeing_put _ rfl rfl fun _ _ => trivial
    · cases h
  | rmdir =>
    simp only [State.perform] at h
    split at h
    · obtain rfl := Option.some.inj h
      exact seeing_put _ rfl rfl fun _ _ => trivial
    · cases h
  | fail =>
    simp only [State.perform, State.fail] at h
    split at h
    all_goals cases h
    all_goals first
      | exact seeing_put _ rfl rfl fun _ _ => trivial
      | exact seeing_put _ rfl rfl fun _ hL => hL

/-- Every process is where its own looks tell. -/
def Traced (J : List Look) (s : State) : Prop :=
  ∀ t p, s.procs[t]? = some p → Tells (J.filter fun k => k.proc = t) p.pc

theorem looks_of_other {s : State} {t j : ℕ} (o : Op) (h : t ≠ j) :
    (looks s (.op t o)).filter (fun k => k.proc = j) = [] := by
  cases o with
  | read readable =>
    simp only [looks]
    split
    · split <;> simp [h]
    · rfl
  | _ => rfl

theorem looks_of_self (s : State) (t : ℕ) (o : Op) :
    (looks s (.op t o)).filter (fun k => k.proc = t) = looks s (.op t o) := by
  cases o with
  | read readable =>
    simp only [looks]
    split
    · split <;> simp
    · rfl
  | _ => rfl

theorem traced_step {J : List Look} {s s' : State} {a : Action} (h : Traced J s)
    (hs : step s a = some s') : Traced (J ++ looks s a) s' := by
  intro j q hj
  rw [List.filter_append]
  cases a with
  | start host pid =>
    obtain rfl := Option.some.inj hs
    rw [show looks s (.start host pid) = [] from rfl, List.filter_nil, List.append_nil]
    rcases Nat.lt_or_ge j s.procs.length with hlt | hge
    · exact h j q (by rwa [List.getElem?_append_left hlt] at hj)
    · rw [List.getElem?_append_right hge, List.getElem?_singleton] at hj
      split_ifs at hj
      obtain rfl := Option.some.inj hj
      trivial
  | op t o =>
    obtain ⟨p, ht, hs⟩ := Option.bind_eq_some_iff.mp hs
    obtain ⟨p', hprocs, htells⟩ := seeing_perform ht hs
    rw [hprocs, List.getElem?_set] at hj
    split_ifs at hj with htj hlt
    · subst htj
      obtain rfl := Option.some.inj hj
      rw [looks_of_self]
      exact htells _ (h t p (live_eq_some.mp ht).1)
    · rw [looks_of_other o htj, List.append_nil]
      exact h j q hj
  | crash t =>
    obtain ⟨p, ht, rfl⟩ := Option.map_eq_some_iff.mp hs
    rw [show looks s (.crash t) = [] from rfl, List.filter_nil, List.append_nil]
    simp only [State.put, List.getElem?_set] at hj
    split_ifs at hj with htj hlt
    · subst htj
      obtain rfl := Option.some.inj hj
      exact h t p (live_eq_some.mp ht).1
    · exact h j q hj
  | tick d =>
    obtain rfl := Option.some.inj hs
    rw [show looks s (.tick d) = [] from rfl, List.filter_nil, List.append_nil]
    exact h j q hj

theorem traced_initial : Traced [] initial := by
  intro t p ht
  simp [initial] at ht

/-- A process about to take a lock over has seen its heartbeat unchanged for the threshold. -/
theorem watched_of_run {acts : List Action} {s : State} (hr : run step initial acts = some s)
    {t : ℕ} {p : Proc} (ht : s.live t = some p) (hp : p.pc.taking) :
    Watched (journal step looks initial acts) t := by
  have htraced : Traced ([] ++ journal step looks initial acts) s :=
    run_journal traced_initial (fun J m a m' h _ hs => traced_step h hs) (along_true _ _ _) hr
  have htells := htraced t p (live_eq_some.mp ht).1
  cases hpc : p.pc <;> rw [hpc] at hp htells <;> first | exact htells | cases hp

theorem exclusive_of_run {acts : List Action} {s : State} (hr : run step initial acts = some s) :
    (∀ t p, s.live t = some p → p.pc.taking → Watched (journal step looks initial acts) t) ∧
    (Along step Refreshed initial acts → Along step Careful initial acts → Exclusive s) := by
  refine ⟨fun t p ht hp => watched_of_run hr ht hp, fun hf hc => ?_⟩
  have hsound : Sound s := run_invariant sound_initial
    (fun m a m' h hboth hs => sound_step h hboth.1 hboth.2 hs) (hf.and hc) hr
  exact hsound.exclusive

/-- Process 0 takes the free lock and dies with it. -/
def abandoned : List Action :=
  [.start "node-a" 1, .op 0 .mkdir, .op 0 (.write 1000), .op 0 .rename, .crash 0]

def lookAgain (t : ℕ) : List Action := [.op t .wake, .op t .mkdir, .op t (.read true)]

/-- Process 1 waits for it alone and finds its heartbeat frozen. -/
def oneWaits : List Action :=
  [.start "node-b" 1, .op 1 .mkdir, .op 1 (.read true), .tick (nanoseconds 31)] ++ lookAgain 1 ++
  [.tick (nanoseconds 31)] ++ lookAgain 1 ++ [.tick (nanoseconds 31)] ++ lookAgain 1

def oneTakes : List Action :=
  [.op 1 (.write 1093), .op 1 .rename, .tick (nanoseconds 60), .op 1 (.write 1153), .op 1 .rename,
    .op 1 .release]

theorem exclusive_of_run_one_waiter :
    (∃ s, run step initial (abandoned ++ oneWaits) = some s ∧
      Watched (journal step looks initial (abandoned ++ oneWaits)) 1) ∧
    ∃ s p, run step initial (abandoned ++ oneWaits ++ oneTakes) = some s ∧ s.live 1 = some p ∧
      p.pc.inside = true ∧ Exclusive s := by
  have hwait : (run step initial (abandoned ++ oneWaits)).any (fun s =>
      (s.live 1).any fun p => p.pc.taking) = true := by decide +kernel
  have htake : (run step initial (abandoned ++ oneWaits ++ oneTakes)).any (fun s =>
      (s.live 1).any fun p => p.pc.inside) = true := by decide +kernel
  obtain ⟨s, hs, hany⟩ := Option.any_eq_true _ _ |>.mp hwait
  obtain ⟨p, hp, htaking⟩ := Option.any_eq_true _ _ |>.mp hany
  obtain ⟨s', hs', hany'⟩ := Option.any_eq_true _ _ |>.mp htake
  obtain ⟨p', hp', hin⟩ := Option.any_eq_true _ _ |>.mp hany'
  have hexcl := (exclusive_of_run hs').2 (by decide +kernel) (by decide +kernel)
  exact ⟨⟨s, hs, (exclusive_of_run hs).1 1 p hp htaking⟩, s', p', hs', hp', hin, hexcl⟩

/-- Processes 1 and 2 wait for it together and both find its heartbeat frozen. -/
def bothWait : List Action :=
  [.start "node-b" 1, .start "node-c" 7, .op 1 .mkdir, .op 1 (.read true), .op 2 .mkdir,
    .op 2 (.read true), .tick (nanoseconds 31)] ++ lookAgain 1 ++ lookAgain 2 ++
  [.tick (nanoseconds 31)] ++ lookAgain 1 ++ lookAgain 2 ++ [.tick (nanoseconds 31)] ++
  lookAgain 1 ++ lookAgain 2

def bothTake : List Action :=
  [.op 1 (.write 1093), .op 1 .rename, .op 2 (.write 1093), .op 2 .rename]

theorem not_exclusive_two_waiters :
    ¬∀ acts s, run step initial acts = some s → Along step Refreshed initial acts →
      Exclusive s := by
  intro h
  have hrun : (run step initial (abandoned ++ bothWait ++ bothTake)).any (fun s =>
      (s.live 1).any (fun p => p.pc.inside) && (s.live 2).any fun p => p.pc.inside) = true := by
    decide +kernel
  obtain ⟨s, hs, hboth⟩ := Option.any_eq_true _ _ |>.mp hrun
  obtain ⟨h1, h2⟩ := Bool.and_eq_true_iff.mp hboth
  obtain ⟨p, hp, hpin⟩ := Option.any_eq_true _ _ |>.mp h1
  obtain ⟨q, hq, hqin⟩ := Option.any_eq_true _ _ |>.mp h2
  have hone := (h _ s hs (by decide +kernel)).one 1 2 p q hp hq hpin hqin
  cases hone

end PurdueAF.PixiLock

import PurdueAF.PixiLockExclusion

/-!
# What a heartbeat's timestamp tells

No two heartbeats are written with one timestamp, so a heartbeat that a process has seen before
is the one it saw: it has not changed since.
-/
namespace PurdueAF.PixiLock

open Machine

/-- What the observer of a process remembers. -/
def Pc.seen : Pc → Seen
  | .mkdir seen | .read seen | .asleep seen _ => seen
  | _ => none

/-- The timestamp that a step writes. -/
def written (_ : State) : Action → List ℚ
  | .op _ (.write ts) => [ts]
  | _ => []

/-- What an operation of a process makes of the lock. -/
inductive Filed (s : State) (o : Op) : Option LockDir → Prop
  | same : Filed s o s.lock
  | gone : Filed s o none
  | made (owner : ℕ) : Filed s o (some ⟨s.dirs, [], owner, s.now⟩)
  | wrote {l : LockDir} (hl : s.lock = some l) (pid : ℕ) (payload : Payload)
      (ho : o = .write payload.ts) :
      Filed s o (some { l with files := l.files.set (.tmp pid) payload })
  | renamed {l : LockDir} (hl : s.lock = some l) (pid : ℕ) {payload : Payload} (owner : ℕ)
      (hget : l.files.get? (.tmp pid) = some payload) :
      Filed s o (some { l with
        files := (l.files.pop (.tmp pid)).set .heartbeat payload, owner := owner, changed := s.now })
  | unlinked {l : LockDir} (hl : s.lock = some l) (name : FileName) :
      Filed s o (some { l with
        files := l.files.pop name, changed := if name = .heartbeat then s.now else l.changed })

/-- What the observer of a process remembers after an operation of it. -/
inductive Recalls (s : State) (p : Proc) : Seen → Prop
  | same : Recalls s p p.pc.seen
  | none : Recalls s p none
  | look (readable : Bool) : Recalls s p (some (s.heartbeatTs readable, s.now))

/-- An operation of process `t`, as far as heartbeats and what is remembered of them go. -/
def Beats (s : State) (t : ℕ) (p : Proc) (o : Op) (s' : State) : Prop :=
  ∃ p', s'.procs = s.procs.set t p' ∧ s'.now = s.now ∧ Filed s o s'.lock ∧ Recalls s p p'.pc.seen

section Operations
variable {s s' : State} {t : ℕ} {p : Proc} {o : Op}

theorem beats_put {l' : Option LockDir} (p' : Proc) (hl : Filed s o l')
    (hp : Recalls s p p'.pc.seen) : Beats s t p o { s.put t p' with lock := l' } :=
  ⟨p', rfl, rfl, hl, hp⟩

theorem beats_goto (pc : Pc) (hp : Recalls s p pc.seen) : Beats s t p o (s.goto t p pc) :=
  ⟨_, rfl, rfl, .same, hp⟩

theorem filed_writeTmp {ts : ℚ} {l' : LockDir} (h : s.writeTmp p ts = some l') :
    Filed s (.write ts) (some l') := by
  obtain ⟨l, hl, rfl⟩ := Option.map_eq_some_iff.mp h
  exact .wrote hl p.pid ⟨p.host, p.pid, ts⟩ rfl

theorem filed_renameTmp {l' : LockDir} (h : s.renameTmp p = some l') (owner : Option ℕ) :
    Filed s o (some { l' with owner := owner.getD l'.owner }) := by
  obtain ⟨l, hl, h⟩ := Option.bind_eq_some_iff.mp h
  obtain ⟨payload, hget, rfl⟩ := Option.map_eq_some_iff.mp h
  exact .renamed hl p.pid (owner.getD l.owner) hget

theorem beats_write {ts : ℚ} (h : s.write t p ts = some s') : Beats s t p (.write ts) s' := by
  unfold State.write at h
  split at h
  · rename_i pc hpc
    have hseen : pc.seen = none := by
      cases hp : p.pc <;> rw [hp] at hpc <;> cases hpc <;> rfl
    split at h
    · rename_i l hl
      obtain rfl := Option.some.inj h
      exact beats_put _ (filed_writeTmp hl) (by rw [hseen]; exact .none)
    · obtain rfl := Option.some.inj h
      exact beats_goto _ .none
  · split_ifs at h
    split at h
    · rename_i l hl
      obtain rfl := Option.some.inj h
      exact beats_put _ (filed_writeTmp hl) .same
    · obtain rfl := Option.some.inj h
      exact beats_put _ .same .same

theorem beats_rename (h : s.rename t p = some s') : Beats s t p .rename s' := by
  unfold State.rename at h
  split_ifs at h
  · split at h
    · rename_i l hl
      obtain rfl := Option.some.inj h
      exact beats_put _ (filed_renameTmp hl (some t)) .none
    · obtain rfl := Option.some.inj h
      exact beats_goto _ .none
  · split at h
    · rename_i l hl
      obtain rfl := Option.some.inj h
      exact beats_put _ (filed_renameTmp hl none) .same
    · obtain rfl := Option.some.inj h
      exact beats_put _ .same .same

theorem recalls_frozen {threshold : ℕ} (readable : Bool) {seen' : Seen} {b : Bool}
    (h : frozen threshold p.pc.seen (s.heartbeatTs readable) s.now = (seen', b)) :
    Recalls s p seen' := by
  unfold frozen at h
  split at h
  · cases h
    exact .look readable
  · rename_i ts first hseen
    split_ifs at h
    · cases h
      exact .look readable
    · cases h
      exact .same

theorem beats_perform (h : s.perform t p o = some s') : Beats s t p o s' := by
  cases o with
  | write ts => exact beats_write h
  | rename => exact beats_rename h
  | mkdir =>
    simp only [State.perform] at h
    split at h
    · obtain rfl := Option.some.inj h
      exact beats_put _ (.made t) .none
    · rename_i seen l hpc _
      obtain rfl := Option.some.inj h
      refine beats_goto _ ?_
      rw [show (Pc.read seen).seen = p.pc.seen by rw [hpc]; rfl]
      exact .same
    · cases h
  | read readable =>
    simp only [State.perform] at h
    split at h
    · rename_i seen hpc
      have hseen : p.pc.seen = seen := by rw [hpc]; rfl
      split at h
      · obtain rfl := Option.some.inj h
        exact beats_goto _ .none
      · rename_i seen' hfrozen
        obtain rfl := Option.some.inj h
        exact beats_goto _ (recalls_frozen readable (hseen ▸ hfrozen))
    · cases h
  | wake =>
    simp only [State.perform] at h
    split at h
    · rename_i seen till hpc
      split_ifs at h
      obtain rfl := Option.some.inj h
      refine beats_goto _ ?_
      rw [show (Pc.mkdir seen).seen = p.pc.seen by rw [hpc]; rfl]
      exact .same
    · cases h
  | release =>
    simp only [State.perform] at h
    split_ifs at h
    obtain rfl := Option.some.inj h
    exact beats_goto _ .none
  | openDir =>
    simp only [State.perform] at h
    split at h
    all_goals cases h
    all_goals exact beats_goto _ .none
  | list names =>
    simp only [State.perform, State.list] at h
    split at h
    · split_ifs at h
      obtain rfl := Option.some.inj h
      exact beats_goto _ .none
    · cases h
  | unlink =>
    simp only [State.perform] at h
    split at h
    · rename_i inode name names hpc
      obtain rfl := Option.some.inj h
      refine beats_put _ ?_ .none
      unfold State.unlinkIn
      cases hl : s.lock with
      | none => exact .gone
      | some l =>
        rw [Option.map_some]
        by_cases hinode : l.inode = inode
        · rw [if_pos hinode]
          exact .unlinked hl name
        · rw [if_neg hinode, ← hl]
          exact .same
    · cases h
  | rmdir =>
    simp only [State.perform] at h
    split at h
    · obtain rfl := Option.some.inj h
      refine beats_put _ ?_ .none
      cases hl : s.lock with
      | none => exact .gone
      | some l =>
        rw [Option.filter_some]
        split_ifs
        · rw [← hl]
          exact .same
        · exact .gone
    · cases h
  | fail =>
    simp only [State.perform, State.fail] at h
    split at h
    all_goals cases h
    case h_6 => exact beats_put _ .same .same
    all_goals exact beats_goto _ .none

end Operations

/-- The files of the directory have timestamps of their own, out of `W`. -/
structure Dated (W : List ℚ) (now : ℕ) (l : LockDir) : Prop where
  past : l.changed ≤ now
  files : ∀ n payload, l.files.get? n = some payload → payload.ts ∈ W
  apart : ∀ n n' payload payload', l.files.get? n = some payload →
    l.files.get? n' = some payload' → payload.ts = payload'.ts → n = n'

/-- A file of this timestamp is the heartbeat, which has not changed since. -/
def Old (ts : ℚ) (since : ℕ) (l : LockDir) : Prop :=
  ∀ n payload, l.files.get? n = some payload → payload.ts = ts → n = .heartbeat ∧ l.changed ≤ since

section Dates
variable {W W' : List ℚ} {s s' : State} {t : ℕ} {p : Proc} {o : Op} {l l' : LockDir} {ts : ℚ}
  {first : ℕ}

theorem Dated.mono {now now' : ℕ} (h : Dated W now l) (hsub : W ⊆ W') (hle : now ≤ now') :
    Dated W' now' l :=
  ⟨h.past.trans hle, fun n payload hn => hsub (h.files n payload hn), h.apart⟩

theorem Dated.filed (h : ∀ l, s.lock = some l → Dated W s.now l) (hf : Filed s o (some l'))
    (hnew : ∀ ts, o = .write ts → ts ∉ W) (hin : ∀ ts, o = .write ts → ts ∈ W') (hsub : W ⊆ W') :
    Dated W' s.now l' := by
  generalize hsome : some l' = l'' at hf
  cases hf with
  | same => exact (h l' hsome.symm).mono hsub le_rfl
  | gone => cases hsome
  | made owner =>
    cases hsome
    exact ⟨le_rfl, by simp, by simp⟩
  | wrote hl pid payload ho =>
    cases hsome
    have hd := h _ hl
    refine ⟨hd.past, fun n q hq => ?_, fun n n' q q' hq hq' heq => ?_⟩
    · rw [Dict.get?_set] at hq
      split_ifs at hq
      · cases hq
        exact hin _ ho
      · exact hsub (hd.files n q hq)
    · rw [Dict.get?_set] at hq hq'
      split_ifs at hq hq' with hn hn' hn'
      · rw [hn, hn']
      · cases hq
        exact absurd (heq ▸ hd.files n' q' hq') (hnew _ ho)
      · cases hq'
        exact absurd (heq ▸ hd.files n q hq) (hnew _ ho)
      · exact hd.apart n n' q q' hq hq' heq
  | renamed hl pid owner hget =>
    cases hsome
    have hd := h _ hl
    refine ⟨le_rfl, fun n q hq => hsub ?_, fun n n' q q' hq hq' heq => ?_⟩
    · rw [Dict.get?_set, Dict.get?_pop] at hq
      split_ifs at hq
      · cases hq
        exact hd.files _ _ hget
      · exact hd.files n q hq
    · rw [Dict.get?_set, Dict.get?_pop] at hq hq'
      split_ifs at hq hq' with hn hn' htmp' htmp hn' htmp'
      · rw [hn, hn']
      · cases hq
        exact absurd (hd.apart _ _ _ _ hq' hget heq.symm) htmp'
      · cases hq'
        exact absurd (hd.apart _ _ _ _ hq hget heq) htmp
      · exact hd.apart n n' q q' hq hq' heq
  | unlinked hl name =>
    cases hsome
    have hd := h _ hl
    refine ⟨?_, fun n q hq => hsub ?_, fun n n' q q' hq hq' heq => ?_⟩
    · dsimp only
      split_ifs
      · exact le_rfl
      · exact hd.past
    · rw [Dict.get?_pop] at hq
      split_ifs at hq
      exact hd.files n q hq
    · rw [Dict.get?_pop] at hq hq'
      split_ifs at hq hq'
      exact hd.apart n n' q q' hq hq' heq

theorem Old.filed (h : ∀ l, s.lock = some l → Old ts first l) (hf : Filed s o (some l'))
    (hne : o ≠ .write ts) : Old ts first l' := by
  generalize hsome : some l' = l'' at hf
  intro n q hq hts
  cases hf with
  | same => exact h l' hsome.symm n q hq hts
  | gone => cases hsome
  | made owner =>
    cases hsome
    simp at hq
  | wrote hl pid payload ho =>
    cases hsome
    rw [Dict.get?_set] at hq
    split_ifs at hq
    · cases hq
      exact absurd (hts ▸ ho) hne
    · exact h _ hl n q hq hts
  | renamed hl pid owner hget =>
    cases hsome
    rw [Dict.get?_set, Dict.get?_pop] at hq
    split_ifs at hq with hn
    · -- What was renamed was not the heartbeat before.
      cases hq
      cases (h _ hl _ _ hget hts).1
    · exact absurd (h _ hl n q hq hts).1 hn
  | unlinked hl name =>
    cases hsome
    rw [Dict.get?_pop] at hq
    split_ifs at hq with hn
    obtain ⟨rfl, hle⟩ := h _ hl n q hq hts
    exact ⟨rfl, by rwa [if_neg (Ne.symm hn)]⟩

/-- A heartbeat that is looked at has not changed since. -/
theorem Dated.looked (h : Dated W s.now l) (hl : s.lock = some l) {readable : Bool}
    (hts : s.heartbeatTs readable = some ts) : ts ∈ W ∧ Old ts s.now l := by
  obtain ⟨payload, hget, rfl⟩ : ∃ payload, l.files.get? .heartbeat = some payload ∧
      payload.ts = ts := by
    unfold State.heartbeatTs at hts
    split_ifs at hts
    simpa [hl] using hts
  exact ⟨h.files _ _ hget, fun n q hq heq => ⟨h.apart _ _ _ _ hq hget heq, h.past⟩⟩

end Dates

/-- The heartbeats are dated, and what the processes have seen is old. -/
structure Remembered (W : List ℚ) (s : State) : Prop where
  dated : ∀ l, s.lock = some l → Dated W s.now l
  old : ∀ (t : ℕ) (p : Proc) (ts : ℚ) (first : ℕ), s.procs[t]? = some p →
    p.pc.seen = some (some ts, first) → ts ∈ W ∧ ∀ l, s.lock = some l → Old ts first l

section Steps
variable {W : List ℚ} {s s' : State}

theorem Remembered.performed (h : Remembered W s) {t : ℕ} {p : Proc} {o : Op}
    (ht : s.procs[t]? = some p) (hs : s.perform t p o = some s')
    (hnew : ∀ ts ∈ written s (.op t o), ts ∉ W) : Remembered (W ++ written s (.op t o)) s' := by
  obtain ⟨p', hprocs, hnow, hfiled, hrecalls⟩ := beats_perform hs
  have hsub : W ⊆ W ++ written s (.op t o) := List.subset_append_left ..
  have hwrite (ts : ℚ) (ho : o = .write ts) : ts ∈ written s (.op t o) := by simp [written, ho]
  have hkept {ts : ℚ} {first : ℕ} (hts : ts ∈ W) (hold : ∀ l, s.lock = some l → Old ts first l) :
      ts ∈ W ++ written s (.op t o) ∧ ∀ l, s'.lock = some l → Old ts first l :=
    ⟨hsub hts, fun l hl => .filed hold (hl ▸ hfiled) fun ho => hnew ts (hwrite ts ho) hts⟩
  refine ⟨fun l hl => ?_, fun j q ts first hj hq => ?_⟩
  · rw [hnow]
    exact .filed h.dated (hl ▸ hfiled) (fun ts ho => hnew ts (hwrite ts ho))
      (fun ts ho => List.mem_append_right _ (hwrite ts ho)) hsub
  · rw [hprocs, List.getElem?_set] at hj
    split_ifs at hj with htj hlt
    · cases hj
      generalize hseen : p'.pc.seen = seen at hrecalls
      rw [hseen] at hq
      cases hrecalls with
      | same => exact hkept (h.old t p ts first ht hq).1 (h.old t p ts first ht hq).2
      | none => cases hq
      | look readable =>
        obtain ⟨hts, rfl⟩ : s.heartbeatTs readable = some ts ∧ s.now = first := by simpa using hq
        obtain ⟨l, hl⟩ : ∃ l, s.lock = some l := by
          by_contra hnone
          have hlock : s.lock = none := by simpa [Option.eq_none_iff_forall_ne_some] using hnone
          simp [State.heartbeatTs, hlock] at hts
        obtain ⟨hmem, hold⟩ := (h.dated l hl).looked hl hts
        exact hkept hmem fun l' hl' => Option.some.inj (hl.symm.trans hl') ▸ hold
    · exact hkept (h.old j q ts first hj hq).1 (h.old j q ts first hj hq).2

theorem Remembered.step {a : Action} (h : Remembered W s) (hs : step s a = some s')
    (hnew : ∀ ts ∈ written s a, ts ∉ W) : Remembered (W ++ written s a) s' := by
  cases a with
  | op t o =>
    obtain ⟨p, ht, hs⟩ := Option.bind_eq_some_iff.mp hs
    exact h.performed (live_eq_some.mp ht).1 hs hnew
  | start host pid =>
    obtain rfl := Option.some.inj hs
    rw [show written s (.start host pid) = [] from rfl, List.append_nil]
    refine ⟨h.dated, fun j q ts first hj hq => ?_⟩
    rcases Nat.lt_or_ge j s.procs.length with hlt | hge
    · exact h.old j q ts first (by rwa [List.getElem?_append_left hlt] at hj) hq
    · rw [List.getElem?_append_right hge, List.getElem?_singleton] at hj
      split_ifs at hj
      cases hj
      cases hq
  | crash t =>
    obtain ⟨p, ht, rfl⟩ := Option.map_eq_some_iff.mp hs
    rw [show written s (.crash t) = [] from rfl, List.append_nil]
    refine ⟨h.dated, fun j q ts first hj hq => ?_⟩
    simp only [State.put, List.getElem?_set] at hj
    split_ifs at hj with htj hlt
    · cases hj
      exact h.old t p ts first (live_eq_some.mp ht).1 hq
    · exact h.old j q ts first hj hq
  | tick d =>
    obtain rfl := Option.some.inj hs
    rw [show written s (.tick d) = [] from rfl, List.append_nil]
    exact ⟨fun l hl => (h.dated l hl).mono (List.Subset.refl W) (Nat.le_add_right _ _), h.old⟩

/-- What is remembered as long as no timestamp is written twice. -/
def Unrepeated (W : List ℚ) (s : State) : Prop := W.Nodup → Remembered W s

theorem unrepeated_initial : Unrepeated [] initial :=
  fun _ => ⟨by simp [initial], by simp [initial]⟩

theorem unrepeated_step {a : Action} (h : Unrepeated W s) (hs : step s a = some s') :
    Unrepeated (W ++ written s a) s' := by
  intro hnodup
  obtain ⟨hW, -, hapart⟩ := List.nodup_append.mp hnodup
  exact (h hW).step hs fun ts hmem hold => hapart ts hold ts hmem rfl

/-- Where no two heartbeats are written with one timestamp, a heartbeat that a look finds frozen
has not changed for the threshold. -/
theorem changed_of_finds {acts : List Action} (hr : run step initial acts = some s)
    (hts : (journal step written initial acts).Nodup) {t : ℕ} {readable : Bool}
    (hf : s.finds t readable = true) (hbeat : s.heartbeatTs readable ≠ none) :
    ∃ l ∈ s.lock, l.changed + nanoseconds lockFrozenSeconds < s.now := by
  have h : Remembered ([] ++ journal step written initial acts) s :=
    run_journal unrepeated_initial (fun W m a m' h _ hm => unrepeated_step h hm)
      (along_true _ _ _) hr hts
  unfold State.finds at hf
  split at hf
  · rename_i p ht
    split at hf
    · rename_i seen hpc
      have hseen : p.pc.seen = seen := by rw [hpc]; rfl
      obtain ⟨ts, hlook⟩ := Option.ne_none_iff_exists'.mp hbeat
      unfold frozen at hf
      split at hf
      · cases hf
      · rename_i ts' first
        split_ifs at hf with hne
        obtain rfl : ts' = some ts := (not_not.mp hne).trans hlook
        obtain ⟨-, hold⟩ := h.old t p ts first (live_eq_some.mp ht).1 hseen
        obtain ⟨l, hl, payload, hget, heq⟩ : ∃ l, s.lock = some l ∧ ∃ payload,
            l.files.get? .heartbeat = some payload ∧ payload.ts = ts := by
          unfold State.heartbeatTs at hlook
          split_ifs at hlook
          simpa [Option.bind_eq_some_iff] using hlook
        have hle := (hold l hl _ _ hget heq).2
        have hlong : nanoseconds lockFrozenSeconds < s.now - first := by simpa using hf
        exact ⟨l, hl, by omega⟩
    · cases hf
  · cases hf

end Steps

end PurdueAF.PixiLock

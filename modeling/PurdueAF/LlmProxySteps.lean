import PurdueAF.LlmProxy

/-!
# What a step of the proxy does to the gates' books

`busy` and `held` of each gate change where `acquire` grants a slot and where `release`
gives one back, and nowhere else. Here it is said once which step does which, and what a
thread takes along from one suspension to the next.
-/
namespace PurdueAF.LlmProxy
open Py Binary64 Coroutine

/-- What each gate counts: its requests in flight and the tokens they hold. -/
def books (g : Memory) (name : String) : ℤ × ℤ := ((g.gates name).busy, (g.gates name).held)

/-- The books with `n` more requests and `tokens` more tokens for one model. -/
def book (b : String → ℤ × ℤ) (m : Model) (n tokens : ℤ) (name : String) : ℤ × ℤ :=
  if name = m.name then ((b name).1 + n, (b name).2 + tokens) else b name

namespace Gate
variable (g : Gate) (m : Model) (now : ℚ)

@[simp] theorem busy_trim : (g.trim now).busy = g.busy := rfl
@[simp] theorem held_trim : (g.trim now).held = g.held := rfl
@[simp] theorem busy_enqueue (rank : ℤ) : (g.enqueue rank now).busy = g.busy := rfl
@[simp] theorem held_enqueue (rank : ℤ) : (g.enqueue rank now).held = g.held := rfl
@[simp] theorem busy_leave (seq : ℕ) : (g.leave seq).busy = g.busy := rfl
@[simp] theorem held_leave (seq : ℕ) : (g.leave seq).held = g.held := rfl
@[simp] theorem busy_take (tokens : ℤ) : (g.take tokens).busy = g.busy + 1 := rfl
@[simp] theorem held_take (tokens : ℤ) : (g.take tokens).held = g.held + tokens := rfl
@[simp] theorem busy_pause (wait : Value) : (g.pause wait now).busy = g.busy := rfl
@[simp] theorem held_pause (wait : Value) : (g.pause wait now).held = g.held := rfl
@[simp] theorem busy_recovered : g.recovered.busy = g.busy := rfl
@[simp] theorem held_recovered : g.recovered.held = g.held := rfl
@[simp] theorem busy_halveSlots : (g.halveSlots now).busy = g.busy := rfl
@[simp] theorem held_halveSlots : (g.halveSlots now).held = g.held := rfl
@[simp] theorem busy_release (tokens n : ℤ) : (g.release tokens n now).busy = g.busy - 1 := rfl
@[simp] theorem held_release (tokens n : ℤ) :
    (g.release tokens n now).held = g.held - tokens := rfl

@[simp] theorem busy_adjust : (g.adjust m now).busy = g.busy := by
  unfold adjust
  dsimp only
  split_ifs <;> rfl

@[simp] theorem held_adjust : (g.adjust m now).held = g.held := by
  unfold adjust
  dsimp only
  split_ifs <;> rfl

@[simp] theorem busy_observe (ttft : Option ℚ) (d : Option Value) :
    (g.observe m ttft d now).busy = g.busy := by simp [observe]

@[simp] theorem held_observe (ttft : Option ℚ) (d : Option Value) :
    (g.observe m ttft d now).held = g.held := by simp [observe]

@[simp] theorem busy_noteFailure (settings : Settings) :
    (g.noteFailure settings now).busy = g.busy := by
  unfold noteFailure
  dsimp only
  split_ifs <;> rfl

@[simp] theorem held_noteFailure (settings : Settings) :
    (g.noteFailure settings now).held = g.held := by
  unfold noteFailure
  dsimp only
  split_ifs <;> rfl

end Gate

variable {g : Memory} {m : Model} {gate : Gate}

theorem books_setGate (n tokens : ℤ) (hb : gate.busy = (g.gate m).busy + n)
    (hh : gate.held = (g.gate m).held + tokens) :
    books (g.setGate m gate) = book (books g) m n tokens := by
  funext name
  simp only [books, book, Memory.setGate]
  split_ifs with h
  · subst h
    exact Prod.ext hb hh
  · rfl

theorem books_setGate_same (hb : gate.busy = (g.gate m).busy) (hh : gate.held = (g.gate m).held) :
    books (g.setGate m gate) = books g := by
  funext name
  simp only [books, Memory.setGate]
  split_ifs with h
  · subst h
    exact Prod.ext hb hh
  · rfl

/-- The request that is in flight. -/
def flightOf : Pc → Option Attempt
  | .exchange _ a | .release _ a _ _ _ => some a
  | _ => none

/-- An entry in the books of a gate: a slot granted or given back, with its tokens. -/
structure Entry where
  granted : Bool
  model : String
  tokens : ℤ
  deriving DecidableEq

def Event.entry? : Event → Option Entry
  | .acquired model tokens => some ⟨true, model, tokens⟩
  | .released model tokens => some ⟨false, model, tokens⟩
  | _ => none

def entries (events : List Event) : List Entry := events.filterMap Event.entry?

/-- The books stay; a slot is granted; it is given back; or the thread ends without giving
it back, as the `finally` that should raised. -/
inductive Booked (g : Memory) (pc : Pc) (r : Step) : Prop
  | same (hb : books r.mem = books g) (hf : r.next.bind flightOf = flightOf pc)
      (he : entries r.events = [])
  | granted (l : Loop) (a : Attempt) (seq : Option ℕ) (hpc : pc = .acquire l a seq)
      (hn : r.next = some (.exchange l a))
      (hroom : (g.gate a.backend.model).held + a.tokens ≤ a.backend.model.budget ∨
        (g.gate a.backend.model).busy = 0)
      (hb : books r.mem = book (books g) a.backend.model 1 a.tokens)
      (he : entries r.events = [⟨true, a.backend.model.name, a.tokens⟩])
  | returned (l : Loop) (a : Attempt) (reply : Reply) (n : ℤ) (raised : Option Exc)
      (hpc : pc = .release l a reply n raised) (hn : r.next.bind flightOf = none)
      (hb : books r.mem = book (books g) a.backend.model (-1) (-a.tokens))
      (he : entries r.events = [⟨false, a.backend.model.name, a.tokens⟩])
  | leaked (l : Loop) (a : Attempt) (e : Exc) (hpc : pc = .exchange l a) (hn : r.next = none)
      (hb : books r.mem = books g) (he : r.events = [.raised e])

variable {w : World} {pc pc' : Pc} {g' : Memory}

theorem Booked.awaiting (hb : books g' = books g) (hf : flightOf pc' = flightOf pc) :
    Booked g pc (LlmProxy.awaiting g' pc') :=
  .same hb hf rfl

theorem Booked.returns (hb : books g' = books g) (hf : flightOf pc = none) (r : Reply) :
    Booked g pc (LlmProxy.returns g' r) :=
  .same hb hf.symm rfl

theorem Booked.raises (hb : books g' = books g) (hf : flightOf pc = none) (e : Exc) :
    Booked g pc (LlmProxy.raises g' e) :=
  .same hb hf.symm rfl

theorem Booked.trying {α : Type} {x : Except Exc α} {next : α → Step} (hb : books g' = books g)
    (hf : flightOf pc = none) (hn : ∀ y, x = .ok y → Booked g pc (next y)) :
    Booked g pc (LlmProxy.trying g' x next) := by
  cases x with
  | ok y => exact hn y rfl
  | error e => exact .raises hb hf e

theorem books_pickAnew (role : Role) (session : String) (bs : List Backend) :
    books (pickAnew w g role session bs).1 = books g := by
  unfold pickAnew
  dsimp only
  split_ifs <;> rfl

/-- `pick` remembers at most which backend it gave, and gives one of the role's. -/
theorem pick_ok {settings : Settings} {req : Request} {b : Backend}
    (h : pick settings w g req = .ok (g', b)) :
    books g' = books g ∧ b ∈ req.role.backends := by
  have hanew {us : List Backend} (hus : usables settings req.raw req.body req.role.backends = .ok us)
      (he : pickAnew w g req.role req.session us = (g', b)) :
      books g' = books g ∧ b ∈ req.role.backends := by
    have hsub : ∀ (bs : List Backend) {cs : List Backend},
        usables settings req.raw req.body bs = .ok cs → ∀ c ∈ cs, c ∈ bs := by
      intro bs
      induction bs with
      | nil =>
        intro cs h c hc
        cases h
        exact hc
      | cons d ds ih =>
        intro cs h c hc
        obtain ⟨u, _, h⟩ := except_bind_ok h
        obtain ⟨es, hes, h⟩ := except_bind_ok h
        have hin : c ∈ d :: es := by
          cases h
          split_ifs at hc
          · exact hc
          · exact List.mem_cons_of_mem _ hc
        rcases List.mem_cons.mp hin with rfl | hin
        · exact List.mem_cons_self
        · exact List.mem_cons_of_mem _ (ih hes c hin)
    refine ⟨by rw [← books_pickAnew (w := w) (g := g) req.role req.session us, he], ?_⟩
    have hb : (pickAnew w g req.role req.session us).2 = b := by rw [he]
    rw [← hb]
    unfold pickAnew
    dsimp only
    have hcand : ∀ c ∈ (if us.isEmpty then req.role.backends else us), c ∈ req.role.backends := by
      intro c hc
      split_ifs at hc
      · exact hc
      · exact hsub _ hus c hc
    generalize (if us.isEmpty then req.role.backends else us) = cands at hcand
    cases hfind : cands.find? (healthy w g) with
    | some c => exact hcand c (List.mem_of_find?_eq_some hfind)
    | none =>
      cases cands with
      | nil => exact List.head_mem _
      | cons c cs => exact hcand c List.mem_cons_self
  unfold pick at h
  split at h
  · rename_i c hc
    obtain ⟨u, _, h⟩ := except_bind_ok h
    split_ifs at h
    · obtain ⟨rfl, rfl⟩ : g = g' ∧ c = b := by
        cases h
        exact ⟨rfl, rfl⟩
      have hk := (Option.filter_eq_some_iff.mp hc).1
      unfold kept? at hk
      split_ifs at hk
      obtain ⟨d, _, hd⟩ := Option.bind_eq_some_iff.mp hk
      exact ⟨rfl, List.mem_of_find?_eq_some hd⟩
    · obtain ⟨us, hus, h⟩ := except_bind_ok h
      exact hanew hus (by cases h; rfl)
  · obtain ⟨us, hus, h⟩ := except_bind_ok h
    exact hanew hus (by cases h; rfl)

theorem Booked.resumePick (settings : Settings) (l : Loop) :
    Booked g (.pick l) (LlmProxy.resumePick settings w g l) := by
  unfold LlmProxy.resumePick
  refine .trying rfl rfl fun (g', b) hp => ?_
  have hb : books g' = books g := (pick_ok hp).1
  refine .trying hb rfl fun prompt _ => .trying hb rfl fun n _ => ?_
  split_ifs
  · exact .returns hb rfl _
  · exact .awaiting hb rfl

theorem Booked.resumeCap (settings : Settings) (l : Loop) (b : Backend) (prompt n : ℤ) :
    Booked g (.cap l b prompt n) (LlmProxy.resumeCap settings w g l b prompt n) := by
  unfold LlmProxy.resumeCap
  dsimp only
  have hb : books (g.setGate b.model ((g.gate b.model).trim w.now)) = books g :=
    books_setGate_same rfl rfl
  exact .trying hb rfl fun c _ => .trying hb rfl fun payload _ => .awaiting hb rfl

theorem Booked.resumeAcquire (l : Loop) (a : Attempt) (seq : Option ℕ) (gone : Bool) :
    Booked g (.acquire l a seq) (LlmProxy.resumeAcquire w g l a seq gone) := by
  unfold LlmProxy.resumeAcquire
  dsimp only
  have hbusy : (queued w g l a.backend.model seq).busy = (g.gate a.backend.model).busy := by
    cases seq <;> rfl
  have hheld : (queued w g l a.backend.model seq).held = (g.gate a.backend.model).held := by
    cases seq <;> rfl
  split_ifs with hgone hfits hlate
  · exact .awaiting (books_setGate_same hbusy hheld) rfl
  · simp only [Bool.and_eq_true, Gate.fits, Bool.or_eq_true, decide_eq_true_eq] at hfits
    refine .granted l a seq rfl rfl ?_ (books_setGate 1 a.tokens ?_ ?_) rfl
    · rw [← hbusy, ← hheld]
      exact hfits.1.1.1.2
    · simp [hbusy]
    · simp [hheld]
  · exact .awaiting (books_setGate_same hbusy hheld) rfl
  · exact .awaiting (books_setGate_same hbusy hheld) rfl

theorem Booked.resumeExchange (std : Std) (l : Loop) (a : Attempt) (u : Upstream) :
    Booked g (.exchange l a) (LlmProxy.resumeExchange std g l a u) := by
  unfold LlmProxy.resumeExchange
  split
  · rename_i reply _
    split_ifs
    · cases hc : reply.completion with
      | ok n => exact .awaiting rfl rfl
      | error e => exact .leaked l a e rfl rfl rfl rfl
    · exact .awaiting rfl rfl
  · exact .awaiting rfl rfl
  · exact .awaiting rfl rfl
  · exact .awaiting rfl rfl

/-- Nothing that `forward` does with a reply touches the books. -/
theorem judged_quiet (settings : Settings) (std : Std) (g : Memory) (l : Loop) (a : Attempt)
    (reply : Reply) :
    (judged settings std g l a reply).mem = g ∧
    (judged settings std g l a reply).next.bind flightOf = none ∧
    entries (judged settings std g l a reply).events = [] := by
  have htry {α : Type} (x : Except Exc α) (next : α → Step)
      (hn : ∀ y, (next y).mem = g ∧ (next y).next.bind flightOf = none ∧
        entries (next y).events = []) :
      (LlmProxy.trying g x next).mem = g ∧ (LlmProxy.trying g x next).next.bind flightOf = none ∧
        entries (LlmProxy.trying g x next).events = [] := by
    cases x with
    | ok y => exact hn y
    | error e => exact ⟨rfl, rfl, rfl⟩
  have hgoing (problem : Option Reply.Problem) :
      (judged.going settings g l a reply problem).mem = g ∧
      (judged.going settings g l a reply problem).next.bind flightOf = none ∧
      entries (judged.going settings g l a reply problem).events = [] := by
    unfold judged.going
    split_ifs
    · exact ⟨rfl, rfl, rfl⟩
    · exact ⟨rfl, rfl, rfl⟩
    · exact htry _ _ fun _ => ⟨rfl, rfl, rfl⟩
    · exact ⟨rfl, rfl, rfl⟩
    · exact htry _ _ fun _ => ⟨rfl, rfl, rfl⟩
  unfold judged
  refine htry _ _ fun problem => ?_
  split
  · split_ifs
    · exact ⟨rfl, rfl, rfl⟩
    · exact hgoing problem
  · exact hgoing problem

theorem Booked.resumeRelease (settings : Settings) (std : Std) (l : Loop) (a : Attempt)
    (reply : Reply) (n : ℤ) (raised : Option Exc) :
    Booked g (.release l a reply n raised)
      (LlmProxy.resumeRelease settings std w g l a reply n raised) := by
  unfold LlmProxy.resumeRelease
  dsimp only
  set g' := g.setGate a.backend.model
    ((g.gate a.backend.model).release a.tokens n w.now) with hg'
  have hb : books g' = book (books g) a.backend.model (-1) (-a.tokens) :=
    books_setGate (-1) (-a.tokens) rfl rfl
  cases raised with
  | some e => exact .returned l a reply n (some e) rfl rfl hb rfl
  | none =>
    obtain ⟨hmem, hnext, hev⟩ := judged_quiet settings std g' l a reply
    refine .returned l a reply n none rfl hnext ?_ ?_
    · rw [← hb]
      exact congrArg books hmem
    · simpa [entries, Event.entry?] using hev

theorem Booked.resumeFailed (settings : Settings) (l : Loop) (a : Attempt) (reply : Reply)
    (u : ℚ) : Booked g (.failed l a reply) (LlmProxy.resumeFailed settings w g l a reply u) := by
  unfold LlmProxy.resumeFailed
  dsimp only
  have hwait (g' : Memory) (hb : books g' = books g) (till : Value) :
      Booked g (.failed l a reply)
        (if le (.finite l.deadline) till then LlmProxy.returns g' keptFailing
          else LlmProxy.awaiting g' (.pause l till)) := by
    split_ifs
    · exact .returns hb rfl _
    · exact .awaiting hb rfl
  have hb : books (g.setGate a.backend.model
      ((g.gate a.backend.model).noteFailure settings w.now)) = books g :=
    books_setGate_same (by simp) (by simp)
  split
  · exact hwait _ (books_setGate_same (by simp) (by simp)) _
  · exact .trying hb rfl fun wait _ => hwait _ hb _

theorem Booked.resumeObserve (settings : Settings) (l : Loop) (a : Attempt) (reply : Reply)
    (d : Option Value) :
    Booked g (.observe l a reply d) (LlmProxy.resumeObserve settings w g l a reply d) := by
  unfold LlmProxy.resumeObserve
  dsimp only
  have hb : books (g.setGate a.backend.model
      ((g.gate a.backend.model).observe a.backend.model reply.ttft d w.now)) = books g :=
    books_setGate_same (by simp) (by simp)
  split_ifs
  · exact .returns hb rfl _
  · exact .trying hb rfl fun n _ => .awaiting hb rfl

variable {config : Config} {std : Std} {a : Answer} {r : Step}

/-- Running a thread to its next suspension. -/
theorem resume_booked (h : resume config std w g pc a = some r) : Booked g pc r := by
  cases pc with
  | head l =>
    cases a with
    | bool gone =>
      cases h
      unfold resumeHead
      split
      · exact .returns rfl rfl _
      · split
        · split_ifs
          · exact .returns rfl rfl _
          · exact .awaiting rfl rfl
        · exact .awaiting rfl rfl
    | _ => cases h
  | pick l =>
    cases a with
    | go => cases h; exact .resumePick _ l
    | _ => cases h
  | cap l b prompt n =>
    cases a with
    | go => cases h; exact .resumeCap _ l b prompt n
    | _ => cases h
  | acquire l at_ seq =>
    cases a with
    | bool gone => cases h; exact .resumeAcquire l at_ seq gone
    | _ => cases h
  | denied l =>
    cases a with
    | bool gone =>
      cases h
      unfold resumeDenied
      split_ifs
      · exact .returns rfl rfl _
      · split
        · exact .returns rfl rfl _
        · exact .returns rfl rfl _
    | _ => cases h
  | exchange l at_ =>
    cases a with
    | upstream u => cases h; exact .resumeExchange std l at_ u
    | _ => cases h
  | release l at_ reply n raised =>
    cases a with
    | go => cases h; exact .resumeRelease _ std l at_ reply n raised
    | _ => cases h
  | failing l at_ reply =>
    cases a with
    | bool gone =>
      cases h
      split_ifs
      · exact .awaiting rfl rfl
      · exact .awaiting rfl rfl
    | _ => cases h
  | failed l at_ reply =>
    cases a with
    | uniform u => cases h; exact .resumeFailed _ l at_ reply u
    | _ => cases h
  | pause l till =>
    cases a with
    | bool stopping =>
      cases h
      unfold resumePause
      split_ifs
      · exact .returns rfl rfl _
      · exact .awaiting rfl rfl
    | _ => cases h
  | observe l at_ reply d =>
    cases a with
    | go => cases h; exact .resumeObserve _ l at_ reply d
    | _ => cases h
  | recovered at_ reply d =>
    cases a with
    | go => cases h; exact .awaiting (books_setGate_same rfl rfl) rfl
    | _ => cases h
  | succeeded at_ reply d =>
    cases a with
    | go => cases h; exact .returns (books_setGate_same (by simp) (by simp)) rfl _
    | _ => cases h

theorem start_cases {call : Call} (h : start config w g call = some r) :
    ∃ name raw body session role, call = .forward name raw body session ∧
      config.roles.get? name = some role ∧
      r = awaiting g (.head ⟨⟨role, raw, body, session⟩,
        w.now + config.settings.holdHours * 3600, 0, 0, 0, none, false⟩) := by
  obtain ⟨name, raw, body, session⟩ := call
  obtain ⟨role, hrole, hr⟩ := Option.map_eq_some_iff.mp h
  exact ⟨name, raw, body, session, role, rfl, hrole, hr.symm⟩

/-- The weight of a request in flight to one model. -/
def weigh (f : Attempt → ℤ) (name : String) : Option Attempt → ℤ
  | some x => if x.backend.model.name = name then f x else 0
  | none => 0

/-- The same of a thread. -/
def weighAt (f : Attempt → ℤ) (name : String) (pc : Pc) : ℤ := weigh f name (flightOf pc)

def one (_ : Attempt) : ℤ := 1

theorem weigh_nonneg {f : Attempt → ℤ} {name : String} {x : Option Attempt}
    (h : ∀ y, x = some y → 0 ≤ f y) : 0 ≤ weigh f name x := by
  cases x with
  | none => exact le_refl _
  | some y =>
    simp only [weigh]
    split_ifs
    · exact h y rfl
    · exact le_refl _

theorem book_apply (b : String → ℤ × ℤ) (x : Attempt) (n tokens : ℤ) (name : String) :
    (book b x.backend.model n tokens name).1 = (b name).1 + weigh (fun _ => n) name (some x) ∧
    (book b x.backend.model n tokens name).2 =
      (b name).2 + weigh (fun _ => tokens) name (some x) := by
  unfold book weigh
  by_cases h : name = x.backend.model.name
  · simp [h]
  · simp [h, Ne.symm h]

theorem weigh_neg (f : Attempt → ℤ) (name : String) (x : Option Attempt) :
    weigh (fun y => -f y) name x = -weigh f name x := by
  cases x with
  | none => rfl
  | some y =>
    simp only [weigh]
    split_ifs <;> simp

/-- A gate's books follow what is in flight, but where a thread ends without giving back. -/
theorem Booked.balance {g : Memory} {pc : Pc} {r : Step} (h : Booked g pc r) :
    (∀ name,
      (books r.mem name).1 =
        (books g name).1 - weighAt one name pc + weigh one name (r.next.bind flightOf) ∧
      (books r.mem name).2 = (books g name).2 - weighAt Attempt.tokens name pc +
        weigh Attempt.tokens name (r.next.bind flightOf)) ∨
    (books r.mem = books g ∧ r.next = none ∧ ∃ e, r.events = [.raised e]) := by
  cases h with
  | same hb hf _ =>
    left
    intro name
    rw [hb, hf]
    constructor
    · simp [weighAt]
    · simp [weighAt]
  | granted l x seq hpc hn _ hb _ =>
    left
    intro name
    subst hpc
    rw [hb, (book_apply _ x _ _ name).1, (book_apply _ x _ _ name).2, hn]
    constructor
    · simp [weighAt, flightOf, weigh, one]
    · simp [weighAt, flightOf, weigh]
  | returned l x reply n raised hpc hn hb _ =>
    left
    intro name
    subst hpc
    have hone := weigh_neg one name (some x)
    have htok := weigh_neg Attempt.tokens name (some x)
    rw [hb, (book_apply _ x _ _ name).1, (book_apply _ x _ _ name).2, hn]
    constructor
    · simp only [weighAt, flightOf, weigh, one] at hone ⊢
      omega
    · simp only [weighAt, flightOf, weigh] at htok ⊢
      omega
  | leaked l x e hpc hn hb he => exact .inr ⟨hb, hn, e, he⟩

/-- What is in flight to one model, before and after a thread ran on. -/
theorem total_weighAt {s : St} {t : ℕ} {pc : Pc} {x : Answer} (ht : s.at t = some ⟨pc, some x⟩)
    (r : Step) (f : Attempt → ℤ) (name : String) :
    State.total (weighAt f name) ⟨s.world, r.mem, s.threads.set t (suspend r.next)⟩ =
      s.total (weighAt f name) - weighAt f name pc + weigh f name (r.next.bind flightOf) := by
  have hel : r.next.elim 0 (weighAt f name) = weigh f name (r.next.bind flightOf) := by
    cases r.next <;> rfl
  rw [total_set (weighAt f name) s _ _ ht, elim_suspend, hel]

/-- Answering a thread leaves the clock and the stopping alone. -/
theorem serve_world {w' : World} {c : Answer} (h : serve w pc c = some (w', a)) : w' = w := by
  unfold serve at h
  split at h
  all_goals first
    | (cases h; done)
    | (cases h; rfl)
    | (split_ifs at h <;> cases h <;> rfl)

theorem env_memory {w' : World} {e : Move} (h : env w g e = some (w', g')) :
    g' = g ∧ w.now ≤ w'.now := by
  cases e with
  | tick d =>
    simp only [env] at h
    split_ifs at h with hd
    cases h
    exact ⟨rfl, by simpa using hd⟩
  | stop =>
    cases h
    exact ⟨rfl, le_refl _⟩

end PurdueAF.LlmProxy

import PurdueAF.RayAdmission
import PurdueAF.RaySettings

/-!
# What fits now

`capacity` answers anyone how many workers of a GPU memory and of a number of GPUs each fit at
Purdue and on NRP. The memory it is asked for is read, printed with six digits and read again.
-/
namespace PurdueAF.Ray
open Py RayNaming Binary64

inductive Failure
  | refused (refusal : Refused)
  | raised (e : Exc)
  deriving DecidableEq, Repr

structure Kind where
  resource : String
  memoryGb : ℚ
  workersMost : ℤ
  workersFree : Option ℤ
  workersPreemptible : Option ℤ
  deriving DecidableEq, Repr

/-- The answer; `nrp` is the memory NRP's Prometheus is asked about, if it is. -/
structure Capacity where
  known : Bool
  workersFree : ℤ
  workersPreemptible : ℤ
  workersMost : ℤ
  kinds : List Kind
  nrp : Option ℚ
  deriving DecidableEq, Repr

/-- The condition of `Shape.flavors` on any texts: `int` is called for a flavor that has the
memory only. -/
def suits (memory perWorker : String) (f : Flavor) : Except Exc Bool :=
  match floatOfText memory with
  | none => .error .valueError
  | some m =>
    if le m (.finite f.memory) then
      match intOfText perWorker with
      | .error e => .error e
      | .ok n => .ok (n ≤ (f.perWorker : ℤ))
    else .ok false

def flavorsOf (memory perWorker : String) : List Flavor → Except Exc (List Flavor)
  | [] => .ok []
  | f :: fs => do
    let kept ← suits memory perWorker f
    let more ← flavorsOf memory perWorker fs
    return if kept then f :: more else more

/-- `n // each`. -/
def dividedBy (n : ℤ) (each : ℕ) : Except Exc ℤ :=
  if each = 0 then .error .zeroDivisionError else .ok (n / each)

def kindOf (free : Option Free) (each : ℕ) (f : Flavor) : Except Exc Kind := do
  let most ← dividedBy f.budget each
  match free with
  | none => return ⟨f.resource, f.memory, most, none, none⟩
  | some free =>
    let (unheld, preemptible) := (Dict.get? free f.resource).getD (0, 0)
    let workersFree ← dividedBy unheld each
    let workersPreemptible ← dividedBy preemptible each
    return ⟨f.resource, f.memory, most, some workersFree, some workersPreemptible⟩

/-- The GPUs of a worker on NRP (`nrp_worker().gpus`). -/
def nrpGpus : ℕ := 1

def raising {α : Type} : Except Exc α → Except Failure α
  | .ok x => .ok x
  | .error e => .error (.raised e)

def refusing {α : Type} : Except Refused α → Except Failure α
  | .ok x => .ok x
  | .error e => .error (.refused e)

/-- The memory and the GPUs of a worker that the query asks for, as texts of a shape. -/
def capacityShape (wanted : ℚ) (perWorker : Option String) : Except Refused (String × String) :=
  if flavors.any fun f => wanted ≤ f.memory then do
    let memory ← requestedMemory (formatG wanted)
    let perWorker ← requestedPerWorker (perWorker.getD "") memory
    return (memory, perWorker)
  else
    -- `values.get(...) or "1"`
    .ok (formatG wanted, if perWorker.getD "" = "" then "1" else perWorker.getD "")

def capacity (memory perWorker : Option String) (free : Option Free) : Except Failure Capacity := do
  let wanted ← refusing (gpuMemory (memory.getD ""))
  let shape ← refusing (capacityShape wanted perWorker)
  let each := if whole shape.2 1 none then gpusOf shape.2 else 0
  let fs ← raising (flavorsOf shape.1 shape.2 flavors)
  let kinds ← raising (fs.mapM (kindOf free each))
  return {
    known := free.isSome
    workersFree := (kinds.map fun k => k.workersFree.getD 0).sum
    workersPreemptible := (kinds.map fun k => k.workersPreemptible.getD 0).sum
    workersMost := (kinds.map Kind.workersMost).sum
    kinds := kinds
    nrp := if each = nrpGpus then some wanted else none }

/-- What a query sets of a call. -/
def asked (memory perWorker : Option String) : Dict String String :=
  (memory.map fun m => ("af-min-gpu-memory-gb", m)).toList ++
    (perWorker.map fun p => ("af-gpus-per-worker", p)).toList

/-- A call that asks for the same gets a shape that may hold the flavor. -/
def Accepted (memory perWorker : Option String) (f : Flavor) : Prop :=
  ∀ user, ∃ shape, purdueShape user (asked memory perWorker) = .ok shape ∧
    f ∈ Shape.flavors (memoryOf shape.memory) (gpusOf shape.perWorker)

/-- The query is answered or refused, and of the kinds listed each may be had. -/
def Answered (memory perWorker : Option String) : Except Failure Capacity → Prop
  | .ok found => ∀ kind ∈ found.kinds, ∃ f ∈ flavors, f.resource = kind.resource ∧
      Accepted memory perWorker f
  | .error (.refused _) => True
  | .error (.raised _) => False

/-- No flavor has the memory as it is printed and not as it was asked for, unless the GPUs asked
of each worker are refused or more than it has. -/
def Unrounded (memory perWorker : Option String) : Prop :=
  ∀ wanted, gpuMemory (memory.getD "") = .ok wanted → ∀ f ∈ flavors, f.memory < wanted →
    (∃ q, gpuMemory (formatG wanted) = .ok q ∧ q ≤ f.memory) →
    (∃ n, intOfText (if perWorker.getD "" = "" then "1" else perWorker.getD "") = .ok n ∧
      (f.perWorker : ℤ) < n) ∨
    (∃ g ∈ flavors, wanted ≤ g.memory) ∧
      ∃ refusal, requestedPerWorker (perWorker.getD "") (formatG f.memory) = .error refusal

theorem toNat_of_isDigit {c : Char} (h : isDigit c = true) : 48 ≤ c.toNat ∧ c.toNat ≤ 57 := by
  simp only [isDigit, Bool.and_eq_true, decide_eq_true_eq] at h
  exact ⟨h.1, h.2⟩

theorem digit?_of_isDigit {c : Char} (h : isDigit c = true) : digit? c = some (c.toNat - 48) :=
  digit?_of_ascii (toNat_of_isDigit h).1 (toNat_of_isDigit h).2

theorem digits?_isSome {cs : List Char} (hne : cs ≠ []) (h : ∀ c ∈ cs, isDigit c = true) :
    ∃ ds, digits? cs = some ds := by
  refine ⟨_, digits?_eq_filterMap hne fun c hc => ?_⟩
  rw [digit?_of_isDigit (h c hc), Option.isSome_some]

/-- The characters of a printed number. -/
def isFigure (c : Char) : Bool := isDigit c || c = '.' || c = 'e' || c = '+' || c = '-'

theorem toNat_of_isFigure {c : Char} (h : isFigure c = true) :
    48 ≤ c.toNat ∧ c.toNat ≤ 57 ∨ c.toNat = 46 ∨ c.toNat = 101 ∨ c.toNat = 43 ∨ c.toNat = 45 := by
  simp only [isFigure, Bool.or_eq_true, decide_eq_true_eq] at h
  rcases h with (((h | rfl) | rfl) | rfl) | rfl
  · exact .inl (toNat_of_isDigit h)
  all_goals simp

theorem isSpace_of_isFigure {c : Char} (h : isFigure c = true) : isSpace c = false := by
  have hn := toNat_of_isFigure h
  simp only [isSpace, Bool.or_eq_false_iff, Bool.and_eq_false_iff, decide_eq_false_iff_not]
  omega

theorem lowerAscii_of_isFigure {c : Char} (h : isFigure c = true) : lowerAscii c = c := by
  have hn := toNat_of_isFigure h
  rw [lowerAscii, if_neg]
  simp only [Bool.and_eq_true, decide_eq_true_eq, not_and]
  intro hlow hhigh
  have h65 : 65 ≤ c.toNat := hlow
  have h90 : c.toNat ≤ 90 := hhigh
  omega

theorem stripSpace_of_isFigure {cs : List Char} (h : ∀ c ∈ cs, isFigure c = true) :
    stripSpace cs = cs :=
  stripSpace_eq_self fun c hc => isSpace_of_isFigure (h c hc)

theorem span_append {w rest : List Char} {x : Char} (hw : x ∉ w)
    (hrest : rest = [] ∨ ∃ ds, rest = x :: ds) : (w ++ rest).span (· ≠ x) = (w, rest) := by
  have hall : ∀ c ∈ w, decide (c ≠ x) = true := fun c hc => decide_eq_true fun h => hw (h ▸ hc)
  rw [List.span_eq_takeWhile_dropWhile, List.takeWhile_append_of_pos hall,
    List.dropWhile_append_of_pos hall]
  rcases hrest with rfl | ⟨ds, rfl⟩ <;> simp

theorem mem_fraction {xs : List Char} (hxs : ∀ c ∈ xs, isDigit c = true) :
    fraction xs = [] ∨
      ∃ ds, fraction xs = '.' :: ds ∧ ds ≠ [] ∧ ∀ c ∈ ds, isDigit c = true := by
  have hsub : ∀ c ∈ stripZeros xs, isDigit c = true := by
    intro c hc
    rw [stripZeros, List.mem_reverse] at hc
    exact hxs c (List.mem_reverse.mp ((List.dropWhile_suffix _).subset hc))
  unfold fraction
  cases hstrip : stripZeros xs with
  | nil => exact .inl rfl
  | cons d ds => exact .inr ⟨d :: ds, rfl, by simp, hstrip ▸ hsub⟩

theorem decimal?_fraction {w xs : List Char} (hne : w ≠ []) (hw : ∀ c ∈ w, isDigit c = true)
    (hxs : ∀ c ∈ xs, isDigit c = true) : ∃ m, decimal? (w ++ fraction xs) = some m ∧ 0 ≤ m := by
  have hpoint : '.' ∉ w := fun hmem => absurd (hw _ hmem) (by decide)
  obtain ⟨ws, hws⟩ := digits?_isSome hne hw
  obtain ⟨d, w, rfl⟩ := List.exists_cons_of_ne_nil hne
  rcases mem_fraction hxs with hfr | ⟨ds, hfr, hds, hdigits⟩
  · rw [hfr, decimal?, span_append hpoint (.inl rfl)]
    exact ⟨natOf ws, by simp only [hws]; rfl, Nat.cast_nonneg _⟩
  · obtain ⟨ps, hps⟩ := digits?_isSome hds hdigits
    obtain ⟨e, ds, rfl⟩ := List.exists_cons_of_ne_nil hds
    rw [hfr, decimal?, span_append hpoint (.inr ⟨_, rfl⟩)]
    refine ⟨natOf ws + natOf ps / 10 ^ ps.length, ?_, by positivity⟩
    simp only [hws, hps]
    rfl

/-- The powers of ten a number may be printed with. -/
def IsPower (power : List Char) : Prop :=
  power = [] ∨ ∃ s ds, power = 'e' :: s :: ds ∧ (s = '+' ∨ s = '-') ∧ ds ≠ [] ∧
    ∀ c ∈ ds, isDigit c = true

section Figures
variable {w xs power : List Char} (hw : ∀ c ∈ w, isDigit c = true)
  (hxs : ∀ c ∈ xs, isDigit c = true) (hpower : IsPower power) (hne : w ≠ [])
include hw hxs hpower

theorem isFigure_of_mem {c : Char} (hc : c ∈ w ++ fraction xs ++ power) : isFigure c = true := by
  have hdigit : ∀ {d : Char}, isDigit d = true → isFigure d = true := by
    intro d hd
    simp [isFigure, hd]
  rcases List.mem_append.mp hc with hc | hc
  · rcases List.mem_append.mp hc with hc | hc
    · exact hdigit (hw c hc)
    · rcases mem_fraction hxs with hfr | ⟨ds, hfr, -, hds⟩
      · rw [hfr] at hc
        cases hc
      · rw [hfr] at hc
        rcases List.mem_cons.mp hc with rfl | hc
        · decide
        · exact hdigit (hds c hc)
  · rcases hpower with rfl | ⟨s, ds, rfl, hs, -, hds⟩
    · cases hc
    · rcases List.mem_cons.mp hc with rfl | hc
      · decide
      rcases List.mem_cons.mp hc with rfl | hc
      · rcases hs with rfl | rfl <;> decide
      · exact hdigit (hds c hc)

include hne

theorem unsignedFloat?_figures : ∃ x, unsignedFloat? (w ++ fraction xs ++ power) = some x ∧
    le (.finite 0) x = true := by
  obtain ⟨m, hm, hnonneg⟩ := decimal?_fraction hne hw hxs
  have hlow : (w ++ fraction xs ++ power).map lowerAscii = w ++ fraction xs ++ power := by
    conv_rhs => rw [← List.map_id (w ++ fraction xs ++ power)]
    exact List.map_congr_left fun c hc =>
      lowerAscii_of_isFigure (isFigure_of_mem hw hxs hpower hc)
  have hhead : (w ++ fraction xs ++ power).head?.all isDigit = true := by
    obtain ⟨d, w', rfl⟩ := List.exists_cons_of_ne_nil hne
    exact hw d (by simp)
  have hmantissa : 'e' ∉ w ++ fraction xs := by
    intro hmem
    rcases List.mem_append.mp hmem with hmem | hmem
    · exact absurd (hw _ hmem) (by decide)
    · rcases mem_fraction hxs with hfr | ⟨ds, hfr, -, hds⟩
      · rw [hfr] at hmem
        cases hmem
      · rw [hfr] at hmem
        rcases List.mem_cons.mp hmem with h | hmem
        · exact absurd h (by decide)
        · exact absurd (hds _ hmem) (by decide)
  rw [unsignedFloat?]
  simp only [hlow]
  have hinf : ¬(w ++ fraction xs ++ power = "inf".toList ∨
      w ++ fraction xs ++ power = "infinity".toList) := by
    rintro (h | h)
    · exact absurd hhead (by rw [h]; decide)
    · exact absurd hhead (by rw [h]; decide)
  have hnan : w ++ fraction xs ++ power ≠ "nan".toList := by
    intro h
    exact absurd hhead (by rw [h]; decide)
  rw [if_neg hinf, if_neg hnan]
  rcases hpower with rfl | ⟨s, ds, rfl, hs, hds, hdigits⟩
  · rw [span_append hmantissa (.inl rfl)]
    exact ⟨nearest m, by simp only [hm, Option.map_some], zero_le_nearest hnonneg⟩
  · obtain ⟨es, hes⟩ := digits?_isSome hds hdigits
    rw [span_append hmantissa (.inr ⟨_, rfl⟩)]
    have hpow : ∀ e : ℤ, 0 ≤ m * 10 ^ e := fun e => mul_nonneg hnonneg (zpow_nonneg (by decide) e)
    rcases hs with rfl | rfl
    · exact ⟨nearest (m * 10 ^ (natOf es : ℤ)), by simp [hm, hes, signed],
        zero_le_nearest (hpow _)⟩
    · exact ⟨nearest (m * 10 ^ (-(natOf es : ℤ))), by simp [hm, hes, signed],
        zero_le_nearest (hpow _)⟩

/-- A number printed as digits, a fraction and a power is read as one that is not negative. -/
theorem floatOfText_figures :
    ∃ x, floatOfText (String.ofList (w ++ fraction xs ++ power)) = some x ∧
      le (.finite 0) x = true := by
  have hsigned : signed (w ++ fraction xs ++ power) = (false, w ++ fraction xs ++ power) := by
    obtain ⟨d, w', rfl⟩ := List.exists_cons_of_ne_nil hne
    have hd := hw d (by simp)
    rw [List.cons_append, List.cons_append, signed]
    · rintro rest heq
      rw [(List.cons.inj heq).1] at hd
      exact absurd hd (by decide)
    · rintro rest heq
      rw [(List.cons.inj heq).1] at hd
      exact absurd hd (by decide)
  obtain ⟨x, hx, hnonneg⟩ := unsignedFloat?_figures hw hxs hpower hne
  refine ⟨x, ?_, hnonneg⟩
  rw [floatOfText, String.toList_ofList,
    stripSpace_of_isFigure fun c hc => isFigure_of_mem hw hxs hpower hc, hsigned]
  simp only [hx, Option.map_some]
  rfl

end Figures

theorem isDigit_of_mem_toString {n : ℕ} {c : Char} (h : c ∈ (toString n).toList) :
    isDigit c = true := by
  rw [toList_toString] at h
  have hdigit := Nat.isDigit_of_mem_toDigits (by decide) (le_refl 10) h
  simp only [Char.isDigit, Bool.and_eq_true, decide_eq_true_eq] at hdigit
  simp only [isDigit, Bool.and_eq_true, decide_eq_true_eq]
  exact ⟨hdigit.1, hdigit.2⟩

theorem toString_ne_nil (n : ℕ) : (toString n).toList ≠ [] := by
  rw [toList_toString]
  exact Nat.toDigits_ne_nil

theorem decade_nonneg {q : ℚ} (hq : 1 ≤ q) : 0 ≤ decade q := by
  have hpos := List.length_pos_iff.mpr (toString_ne_nil ⌊q⌋.toNat)
  rw [String.length_toList] at hpos
  rw [decade, if_pos hq]
  omega

theorem floatOfText_formatG {q : ℚ} (hq : 1 ≤ q) :
    ∃ x, floatOfText (formatG q) = some x ∧ le (.finite 0) x = true := by
  have h0 : q ≠ 0 := by
    rintro rfl
    exact absurd hq (by decide)
  have hdecade := decade_nonneg hq
  rw [formatG, if_neg h0]
  have hpair : ∀ rounded : ℤ, 0 ≤ (if rounded = 10 ^ 6 then ((10 ^ 5 : ℤ), decade q + 1)
      else (rounded, decade q)).2 := by
    intro rounded
    split_ifs
    · exact Int.add_nonneg hdecade (by decide)
    · exact hdecade
  have he := hpair (halfEven (q / 10 ^ (decade q - 5)))
  dsimp only
  generalize (if halfEven (q / 10 ^ (decade q - 5)) = 10 ^ 6 then ((10 ^ 5 : ℤ), decade q + 1)
    else (halfEven (q / 10 ^ (decade q - 5)), decade q)) = pair at he ⊢
  obtain ⟨n, e⟩ := pair
  have hdigits : ∀ c ∈ (toString n.toNat).toList, isDigit c = true :=
    fun c hc => isDigit_of_mem_toString hc
  have htake : ∀ k, (toString n.toNat).toList.take (k + 1) ≠ [] := by
    intro k h
    exact toString_ne_nil n.toNat ((List.take_eq_nil_iff.mp h).resolve_left (by omega))
  by_cases hfixed : 0 ≤ e ∧ e < 6
  · rw [if_pos hfixed, ← List.append_nil (_ ++ fraction _)]
    exact floatOfText_figures (fun c hc => hdigits c (List.mem_of_mem_take hc))
      (fun c hc => hdigits c (List.mem_of_mem_drop hc)) (.inl rfl) (htake e.toNat)
  · have hsmall : ¬(-4 ≤ e ∧ e < 0) := fun h => absurd he (by omega)
    rw [if_neg hfixed, if_neg hsmall]
    simp only [List.append_assoc, List.cons_append, List.nil_append]
    rw [← List.append_assoc]
    refine floatOfText_figures (fun c hc => hdigits c (List.mem_of_mem_take hc))
      (fun c hc => hdigits c (List.mem_of_mem_drop hc)) (.inr ⟨_, _, rfl, ?_, ?_, ?_⟩) (htake 0)
    · split_ifs
      · exact .inr rfl
      · exact .inl rfl
    · simp
    · intro c hc
      rcases List.mem_append.mp hc with hc | hc
      · rw [List.eq_of_mem_replicate hc]
        decide
      · exact isDigit_of_mem_toString hc

theorem kindOf_eq_ok (free : Option Free) {each : ℕ} (h : each ≠ 0) (f : Flavor) :
    ∃ kind, kindOf free each f = .ok kind ∧ kind.resource = f.resource := by
  have hdiv : ∀ n : ℤ, dividedBy n each = .ok (n / each) := fun n => if_neg h
  simp only [kindOf, hdiv, ok_bind]
  cases free with
  | none => exact ⟨_, rfl, rfl⟩
  | some free => exact ⟨_, rfl, rfl⟩

theorem mapM_kindOf (free : Option Free) {each : ℕ} (h : each ≠ 0) (fs : List Flavor) :
    ∃ kinds, fs.mapM (kindOf free each) = .ok kinds ∧
      kinds.map Kind.resource = fs.map Flavor.resource := by
  induction fs with
  | nil => exact ⟨[], rfl, rfl⟩
  | cons f fs ih =>
    obtain ⟨kind, hkind, hres⟩ := kindOf_eq_ok free h f
    obtain ⟨kinds, hkinds, hall⟩ := ih
    refine ⟨kind :: kinds, ?_, by rw [List.map_cons, hres, hall, List.map_cons]⟩
    rw [List.mapM_cons, hkind, hkinds]
    rfl

theorem mapM_kindOf_zero {free : Option Free} {f : Flavor} {fs : List Flavor} :
    (f :: fs).mapM (kindOf free 0) = .error .zeroDivisionError := rfl

section Query
variable {memory perWorker : Option String}

theorem setting_asked_memory :
    setting (asked memory perWorker) "af-min-gpu-memory-gb" = memory.getD "" := by
  cases memory <;> cases perWorker <;> rfl

theorem setting_asked_perWorker :
    setting (asked memory perWorker) "af-gpus-per-worker" = perWorker.getD "" := by
  cases memory <;> cases perWorker <;> rfl

theorem accepted_iff {f : Flavor} :
    Accepted memory perWorker f ↔ ∃ m p, requestedMemory (memory.getD "") = .ok m ∧
      requestedPerWorker (perWorker.getD "") m = .ok p ∧
      f ∈ Shape.flavors (memoryOf m) (gpusOf p) := by
  constructor
  · intro h
    obtain ⟨shape, hshape, hf⟩ := h ⟨"", "", 0, 0, false, false⟩
    obtain ⟨hm, -, -, -, hp, -⟩ := purdueShape_eq_ok.mp hshape
    rw [setting_asked_memory] at hm
    rw [setting_asked_perWorker] at hp
    exact ⟨_, _, hm, hp, hf⟩
  · rintro ⟨m, p, hm, hp, hf⟩ user
    refine ⟨⟨defaultEnv, "1", m, workerSize.1, workerSize.2, p, "1", "purdue"⟩, ?_, hf⟩
    rw [purdueShape_eq_ok, setting_asked_memory, setting_asked_perWorker]
    have hother : ∀ name ∈ ["af-env", "af-cpus-per-worker", "af-ram-per-worker-gb",
        "af-n-workers", "af-max-workers"], setting (asked memory perWorker) name = "" := by
      intro name hname
      simp only [List.mem_cons, List.not_mem_nil, or_false] at hname
      rcases hname with rfl | rfl | rfl | rfl | rfl <;>
        cases memory <;> cases perWorker <;> rfl
    rw [hother "af-env" (by simp), hother "af-cpus-per-worker" (by simp),
      hother "af-ram-per-worker-gb" (by simp), hother "af-n-workers" (by simp),
      hother "af-max-workers" (by simp)]
    exact ⟨hm, rfl, rfl, rfl, hp, rfl, rfl⟩

/-- Once the texts are read, the answer stands or falls with the flavors that pass. -/
theorem answered_of_flavors {wanted : ℚ} {m p : String} {fs : List Flavor}
    (hwanted : gpuMemory (memory.getD "") = .ok wanted)
    (hshape : capacityShape wanted perWorker = .ok (m, p))
    (hfs : flavorsOf m p flavors = .ok fs) (hsub : ∀ f ∈ fs, f ∈ flavors) (free : Option Free) :
    Answered memory perWorker (capacity memory perWorker free) ↔
      (fs = [] ∨ (if whole p 1 none then gpusOf p else 0) ≠ 0) ∧
        ∀ f ∈ fs, Accepted memory perWorker f := by
  simp only [capacity, hwanted, hshape, hfs, refusing, raising, ok_bind]
  generalize (if whole p 1 none then gpusOf p else 0) = each
  by_cases heach : each = 0
  · subst heach
    cases fs with
    | nil => simp [Answered, pure, Except.pure]
    | cons f fs =>
      rw [mapM_kindOf_zero]
      simp [Answered, bind, Except.bind]
  · obtain ⟨kinds, hkinds, hres⟩ := mapM_kindOf free heach fs
    rw [hkinds]
    simp only [ok_bind, Answered, pure, Except.pure]
    constructor
    · intro h
      refine ⟨.inr heach, fun f hf => ?_⟩
      have hmem : f.resource ∈ kinds.map Kind.resource :=
        hres ▸ List.mem_map_of_mem (f := Flavor.resource) hf
      obtain ⟨kind, hkind, hk⟩ := List.mem_map.mp hmem
      obtain ⟨g, hg, hgres, hacc⟩ := h kind hkind
      rwa [resource_inj g hg f (hsub f hf) (hgres.trans hk)] at hacc
    · rintro ⟨-, h⟩ kind hkind
      have hmem : kind.resource ∈ fs.map Flavor.resource :=
        hres ▸ List.mem_map_of_mem (f := Kind.resource) hkind
      obtain ⟨f, hf, hk⟩ := List.mem_map.mp hmem
      exact ⟨f, hsub f hf, hk, h f hf⟩

theorem answered_of_refused {wanted : ℚ} {refusal : Refused}
    (hwanted : gpuMemory (memory.getD "") = .ok wanted)
    (hshape : capacityShape wanted perWorker = .error refusal) (free : Option Free) :
    Answered memory perWorker (capacity memory perWorker free) := by
  simp only [capacity, hwanted, hshape, refusing, ok_bind]
  exact trivial

end Query

theorem capacityShape_at_purdue {wanted : ℚ} (h : ∃ g ∈ flavors, wanted ≤ g.memory)
    (perWorker : Option String) : capacityShape wanted perWorker = do
      let memory ← requestedMemory (formatG wanted)
      let perWorker ← requestedPerWorker (perWorker.getD "") memory
      return (memory, perWorker) := by
  obtain ⟨g, hg, hle⟩ := h
  exact if_pos (List.any_eq_true.mpr ⟨g, hg, by simpa using hle⟩)

theorem requestedMemory_isOk_iff {value : String} {wanted : ℚ} (h : gpuMemory value = .ok wanted) :
    (∃ m, requestedMemory value = .ok m) ↔ ∃ f ∈ flavors, wanted ≤ f.memory := by
  simp only [requestedMemory, h]
  cases hmap : (flavors.filter fun f => wanted ≤ f.memory).map Flavor.memory with
  | nil =>
    refine iff_of_false (by simp) ?_
    rintro ⟨f, hf, hle⟩
    have hmem : f ∈ flavors.filter fun f => wanted ≤ f.memory :=
      List.mem_filter.mpr ⟨hf, by simpa using hle⟩
    rw [List.map_eq_nil_iff.mp hmap] at hmem
    cases hmem
  | cons m more =>
    refine iff_of_true ⟨_, rfl⟩ ?_
    have hmem : m ∈ (flavors.filter fun f => wanted ≤ f.memory).map Flavor.memory := by
      rw [hmap]
      simp
    obtain ⟨f, hf, -⟩ := List.mem_map.mp hmem
    exact ⟨f, (List.mem_filter.mp hf).1, by simpa using (List.mem_filter.mp hf).2⟩

theorem requestedPerWorker_five_sixteen (value : String) :
    requestedPerWorker value "5" = requestedPerWorker value "16" := by
  unfold requestedPerWorker
  rw [most_perWorker (.inl rfl), most_perWorker (.inr rfl)]

/-- The GPUs of a worker are those asked for, or one. -/
theorem perWorker_eq {value memory p : String} (h : requestedPerWorker value memory = .ok p) :
    (if value = "" then "1" else value) = p := by
  unfold requestedPerWorker at h
  dsimp only at h
  by_cases hempty : value = ""
  · rw [if_pos hempty] at h ⊢
    exact Except.ok.inj h
  · rw [if_neg hempty] at h ⊢
    split_ifs at h
    exact Except.ok.inj h

theorem mem_flavors {f : Flavor} (hf : f ∈ flavors) :
    f = ⟨"nvidia.com/mig-1g.5gb", 5, 14, 1⟩ ∨ f = ⟨"nvidia.com/gpu", 16, 8, 2⟩ := by
  simpa [flavors] using hf

theorem mem_shape_flavors {memory : ℚ} {perWorker : ℕ} {f : Flavor} :
    f ∈ Shape.flavors memory perWorker ↔
      f ∈ flavors ∧ memory ≤ f.memory ∧ perWorker ≤ f.perWorker := by
  simp [Shape.flavors]

theorem flavorsOf_settled {m p : String} (hm : m = "5" ∨ m = "16") (hp : p = "1" ∨ p = "2") :
    flavorsOf m p flavors = .ok (Shape.flavors (memoryOf m) (gpusOf p)) ∧
      (if whole p 1 none then gpusOf p else 0) ≠ 0 := by
  rcases hm with rfl | rfl <;> rcases hp with rfl | rfl <;> decide +kernel

theorem le_sixteen {wanted : ℚ} (h : ∃ g ∈ flavors, wanted ≤ g.memory) : wanted ≤ 16 := by
  obtain ⟨g, hg, hle⟩ := h
  rcases mem_flavors hg with rfl | rfl
  · exact hle.trans (by norm_num)
  · exact hle

section AtPurdue
variable {memory perWorker : Option String} {wanted : ℚ}
  (hwanted : gpuMemory (memory.getD "") = .ok wanted)
  (hpurdue : ∃ g ∈ flavors, wanted ≤ g.memory)
include hwanted hpurdue

theorem accepted_iff_mem {m p : String} (hm : m = "5" ∨ m = "16")
    (hp : requestedPerWorker (perWorker.getD "") m = .ok p) {f : Flavor} :
    Accepted memory perWorker f ↔
      f ∈ Shape.flavors (if wanted ≤ 5 then 5 else 16) (gpusOf p) := by
  obtain ⟨m', hm'⟩ := (requestedMemory_isOk_iff hwanted).mpr hpurdue
  obtain ⟨w, hw, hcases⟩ := requestedMemory_eq_ok hm'
  obtain rfl : wanted = w := Except.ok.inj (hwanted.symm.trans hw)
  have hsame : requestedPerWorker (perWorker.getD "") m' = .ok p := by
    have hm5 : ∀ {m : String}, m = "5" ∨ m = "16" →
        requestedPerWorker (perWorker.getD "") m = requestedPerWorker (perWorker.getD "") "5" := by
      rintro m (rfl | rfl)
      · rfl
      · exact (requestedPerWorker_five_sixteen _).symm
    rw [hm5 (hcases.imp And.right And.right), ← hm5 hm, hp]
  have hmemory : memoryOf m' = if wanted ≤ 5 then 5 else 16 := by
    rcases hcases with ⟨hle, rfl⟩ | ⟨hlt, rfl⟩
    · rw [if_pos hle, memoryOf_five]
    · rw [if_neg (not_le.mpr hlt), memoryOf_sixteen]
  rw [accepted_iff, ← hmemory]
  constructor
  · rintro ⟨m₁, p₁, hm₁, hp₁, hf⟩
    obtain rfl : m' = m₁ := Except.ok.inj (hm'.symm.trans hm₁)
    obtain rfl : p = p₁ := Except.ok.inj (hsame.symm.trans hp₁)
    exact hf
  · intro hf
    exact ⟨m', p, hm', hsame, hf⟩

theorem unrounded_iff {q : ℚ} (hq : gpuMemory (formatG wanted) = .ok q) :
    Unrounded memory perWorker ↔ (q ≤ 5 → 5 < wanted →
      (∃ n, intOfText (if perWorker.getD "" = "" then "1" else perWorker.getD "") = .ok n ∧ 1 < n) ∨
      ∃ refusal, requestedPerWorker (perWorker.getD "") "5" = .error refusal) := by
  constructor
  · intro h hle hlt
    have hmig := h wanted hwanted ⟨"nvidia.com/mig-1g.5gb", 5, 14, 1⟩ (by simp [flavors]) hlt
      ⟨q, hq, hle⟩
    rw [formatG_five] at hmig
    refine hmig.imp ?_ And.right
    rintro ⟨n, hn, hn1⟩
    exact ⟨n, hn, by exact_mod_cast hn1⟩
  · intro h w hw f hf hlt hslip
    obtain rfl : wanted = w := Except.ok.inj (hwanted.symm.trans hw)
    obtain ⟨q', hq', hle⟩ := hslip
    obtain rfl : q = q' := Except.ok.inj (hq.symm.trans hq')
    rcases mem_flavors hf with rfl | rfl
    · rw [formatG_five]
      refine (h hle hlt).imp ?_ fun hr => ⟨hpurdue, hr⟩
      rintro ⟨n, hn, hn1⟩
      exact ⟨n, hn, by exact_mod_cast hn1⟩
    · exact absurd hlt (not_lt.mpr (le_sixteen hpurdue))

/-- Printed as the memory of the small GPU, a memory above it lists what a call does not get,
where a worker has one GPU. -/
theorem answered_small {q : ℚ} (hq : q ≤ 5) {p : String} (hp : p = "1" ∨ p = "2")
    (hper : requestedPerWorker (perWorker.getD "") "5" = .ok p) :
    (∀ f ∈ Shape.flavors (memoryOf "5") (gpusOf p), Accepted memory perWorker f) ↔
      (q ≤ 5 → 5 < wanted → (∃ n, intOfText p = .ok n ∧ 1 < n) ∨
        ∃ refusal, requestedPerWorker (perWorker.getD "") "5" = .error refusal) := by
  simp only [accepted_iff_mem hwanted hpurdue (.inl rfl) hper, mem_shape_flavors]
  rcases hp with rfl | rfl
  · constructor
    · intro h _ hwant
      have hmig := (h ⟨"nvidia.com/mig-1g.5gb", 5, 14, 1⟩
        ⟨by simp [flavors], memoryOf_five.le, by decide⟩).2.1
      rw [if_neg (not_le.mpr hwant)] at hmig
      exact absurd hmig (by norm_num)
    · rintro h f ⟨hf, hm5, hp1⟩
      have hwant : wanted ≤ 5 := by
        by_contra hwant
        rcases h hq (not_le.mp hwant) with ⟨n, hn, hn1⟩ | ⟨refusal, hr⟩
        · obtain rfl : 1 = n := Except.ok.inj ((show intOfText "1" = .ok 1 by rfl).symm.trans hn)
          omega
        · rw [hper] at hr
          cases hr
      rw [if_pos hwant]
      exact ⟨hf, hm5, hp1⟩
  · refine iff_of_true ?_ fun _ _ => .inl ⟨2, rfl, by decide⟩
    rintro f ⟨hf, -, hp2⟩
    refine ⟨hf, ?_, hp2⟩
    rcases mem_flavors hf with rfl | rfl
    · exact absurd hp2 (by decide)
    · split_ifs <;> norm_num

theorem accepted_large {p : String}
    (hper : requestedPerWorker (perWorker.getD "") "16" = .ok p) :
    ∀ f ∈ Shape.flavors (memoryOf "16") (gpusOf p), Accepted memory perWorker f := by
  simp only [accepted_iff_mem hwanted hpurdue (.inr rfl) hper, mem_shape_flavors]
  rintro f ⟨hf, hm16, hp1⟩
  refine ⟨hf, le_trans ?_ hm16, hp1⟩
  rw [memoryOf_sixteen]
  split_ifs <;> norm_num

theorem answered_at_purdue (free : Option Free) :
    Answered memory perWorker (capacity memory perWorker free) ↔ Unrounded memory perWorker := by
  have hshape := capacityShape_at_purdue hpurdue perWorker
  cases hmem : requestedMemory (formatG wanted) with
  | error refusal =>
    rw [hmem] at hshape
    refine iff_of_true (answered_of_refused hwanted hshape free) ?_
    rintro w hw f hf - ⟨q, hq, hle⟩
    obtain rfl : wanted = w := Except.ok.inj (hwanted.symm.trans hw)
    obtain ⟨m, hm⟩ := (requestedMemory_isOk_iff hq).mpr ⟨f, hf, hle⟩
    rw [hmem] at hm
    cases hm
  | ok m =>
    obtain ⟨q, hq, hcases⟩ := requestedMemory_eq_ok hmem
    have hm : m = "5" ∨ m = "16" := hcases.imp And.right And.right
    rw [hmem, ok_bind] at hshape
    rw [unrounded_iff hwanted hpurdue hq]
    cases hper : requestedPerWorker (perWorker.getD "") m with
    | error refusal =>
      rw [hper] at hshape
      refine iff_of_true (answered_of_refused hwanted hshape free) fun hle _ => .inr ⟨refusal, ?_⟩
      rcases hcases with ⟨-, rfl⟩ | ⟨hlt, -⟩
      · exact hper
      · exact absurd hle (not_le.mpr hlt)
    | ok p =>
      rw [hper, ok_bind] at hshape
      have hp := requestedPerWorker_eq_ok hm hper
      obtain ⟨hfs, heach⟩ := flavorsOf_settled hm hp
      rw [answered_of_flavors hwanted hshape hfs (fun f hf => (List.mem_filter.mp hf).1),
        and_iff_right (.inr heach), perWorker_eq hper]
      rcases hcases with ⟨hle, rfl⟩ | ⟨hlt, rfl⟩
      · exact answered_small hwanted hpurdue hle hp hper
      · exact iff_of_true (accepted_large hwanted hpurdue hper)
          fun hle => absurd hle (not_le.mpr hlt)

end AtPurdue

section Read
variable {m p : String} {x : Value} (hx : floatOfText m = some x)
include hx

theorem flavorsOf_eq_nil {fs : List Flavor} (h : ∀ f ∈ fs, le x (.finite f.memory) = false) :
    flavorsOf m p fs = .ok [] := by
  induction fs with
  | nil => rfl
  | cons f fs ih =>
    have hf : suits m p f = .ok false := by
      simp only [suits, hx, h f (by simp)]
      rfl
    rw [flavorsOf, hf, ih fun g hg => h g (by simp [hg])]
    rfl

theorem flavorsOf_eq_error {e : Exc} (he : intOfText p = .error e) {fs : List Flavor}
    (h : ∃ f ∈ fs, le x (.finite f.memory) = true) : ∃ e, flavorsOf m p fs = .error e := by
  induction fs with
  | nil => simp at h
  | cons f fs ih =>
    by_cases hle : le x (.finite f.memory) = true
    · have hf : suits m p f = .error e := by
        simp only [suits, hx, hle, he]
        rfl
      exact ⟨e, by rw [flavorsOf, hf]; rfl⟩
    · have hf : suits m p f = .ok false := by
        simp only [suits, hx, hle]
        rfl
      have hrest : ∃ g ∈ fs, le x (.finite g.memory) = true := by
        obtain ⟨g, hg, hgle⟩ := h
        rcases List.mem_cons.mp hg with rfl | hg
        · exact absurd hgle hle
        · exact ⟨g, hg, hgle⟩
      obtain ⟨e', he'⟩ := ih hrest
      exact ⟨e', by rw [flavorsOf, hf, he']; rfl⟩

theorem flavorsOf_eq_filter {n : ℤ} (hn : intOfText p = .ok n) (fs : List Flavor) :
    flavorsOf m p fs = .ok (fs.filter fun f =>
      le x (.finite f.memory) && decide (n ≤ (f.perWorker : ℤ))) := by
  induction fs with
  | nil => rfl
  | cons f fs ih =>
    have hf : suits m p f =
        .ok (le x (.finite f.memory) && decide (n ≤ (f.perWorker : ℤ))) := by
      simp only [suits, hx, hn]
      cases le x (.finite f.memory) <;> rfl
    rw [flavorsOf, hf, ih, List.filter_cons]
    rfl

end Read

theorem le_finite_iff {x : Value} {r : ℚ} (h0 : le (.finite 0) x = true) :
    le x (.finite r) = true ↔ ∃ q, x = .finite q ∧ 0 ≤ q ∧ q ≤ r := by
  cases x with
  | finite q =>
    have hq : 0 ≤ q := by simpa [le, lt] using h0
    simp [le, lt, hq]
  | infinite negative => cases negative <;> simp [le, lt] at h0 ⊢
  | nan => simp [le]

theorem gpuMemory_eq_ok {value : String} {x : Value} {q : ℚ} (hx : floatOfText value = some x) :
    gpuMemory value = .ok q ↔ x = .finite q ∧ 0 ≤ q := by
  have hne : value ≠ "" := by
    rintro rfl
    have hempty : floatOfText "" = none := by decide +kernel
    rw [hempty] at hx
    cases hx
  unfold gpuMemory
  rw [if_neg hne, hx]
  cases x with
  | finite r =>
    dsimp only
    by_cases hr : 0 ≤ r
    · rw [if_pos hr]
      constructor
      · intro h
        obtain rfl := Except.ok.inj h
        exact ⟨rfl, hr⟩
      · rintro ⟨h, -⟩
        rw [Value.finite.inj h]
    · rw [if_neg hr]
      refine iff_of_false (by simp) ?_
      rintro ⟨h, hq⟩
      exact hr (Value.finite.inj h ▸ hq)
  | infinite negative => simp
  | nan => simp

section Elsewhere
variable {memory perWorker : Option String} {wanted : ℚ}
  (hwanted : gpuMemory (memory.getD "") = .ok wanted)
  (hnone : ¬∃ g ∈ flavors, wanted ≤ g.memory)
include hwanted hnone

theorem not_accepted_elsewhere (f : Flavor) : ¬Accepted memory perWorker f := by
  intro hf
  obtain ⟨m, p, hm, -⟩ := accepted_iff.mp hf
  exact hnone ((requestedMemory_isOk_iff hwanted).mp ⟨m, hm⟩)

/-- The query stands if the GPUs of a worker are more than any flavor has that passes. -/
theorem unrounded_elsewhere {x : Value} (hx : floatOfText (formatG wanted) = some x)
    (hx0 : le (.finite 0) x = true) :
    Unrounded memory perWorker ↔ ∀ f ∈ flavors, le x (.finite f.memory) = true →
      ∃ n, intOfText (if perWorker.getD "" = "" then "1" else perWorker.getD "") = .ok n ∧
        (f.perWorker : ℤ) < n := by
  constructor
  · intro h f hf hle
    obtain ⟨q, hq, hq0, hqle⟩ := (le_finite_iff hx0).mp hle
    have hlarge : f.memory < wanted := not_le.mp fun hle => hnone ⟨f, hf, hle⟩
    rcases h wanted hwanted f hf hlarge ⟨q, (gpuMemory_eq_ok hx).mpr ⟨hq, hq0⟩, hqle⟩
      with hn | ⟨hpurdue, -⟩
    · exact hn
    · exact absurd hpurdue hnone
  · rintro h w hw f hf - ⟨q, hq, hqle⟩
    obtain rfl : wanted = w := Except.ok.inj (hwanted.symm.trans hw)
    obtain ⟨hq', hq0⟩ := (gpuMemory_eq_ok hx).mp hq
    exact .inl (h f hf ((le_finite_iff hx0).mpr ⟨q, hq', hq0, hqle⟩))

/-- With the GPUs of a worker a number, a flavor that passes is one no call gets. -/
theorem answered_counted {p : String} (hshape : capacityShape wanted perWorker =
    .ok (formatG wanted, p)) {x : Value} (hx : floatOfText (formatG wanted) = some x) {n : ℤ}
    (hn : intOfText p = .ok n) (free : Option Free) :
    Answered memory perWorker (capacity memory perWorker free) ↔
      ∀ f ∈ flavors, le x (.finite f.memory) = true → (f.perWorker : ℤ) < n := by
  have hfs := flavorsOf_eq_filter hx hn flavors
  rw [answered_of_flavors hwanted hshape hfs fun f hf => (List.mem_filter.mp hf).1]
  constructor
  · rintro ⟨-, h⟩ f hf hle
    by_contra hlt
    refine not_accepted_elsewhere hwanted hnone f (h f (List.mem_filter.mpr ⟨hf, ?_⟩))
    rw [hle, Bool.true_and, decide_eq_true_iff]
    omega
  · intro h
    have hnil : flavors.filter (fun f =>
        le x (.finite f.memory) && decide (n ≤ (f.perWorker : ℤ))) = [] := by
      apply List.filter_eq_nil_iff.mpr
      intro f hf hboth
      obtain ⟨hle, hfits⟩ := (Bool.and_eq_true _ _).mp hboth
      have hlt := h f hf hle
      have hge := of_decide_eq_true hfits
      omega
    rw [hnil]
    exact ⟨.inl rfl, by simp⟩

theorem answered_elsewhere (free : Option Free) :
    Answered memory perWorker (capacity memory perWorker free) ↔ Unrounded memory perWorker := by
  have hany : ¬(flavors.any fun f => decide (wanted ≤ f.memory)) = true := by
    rintro h
    obtain ⟨g, hg, hle⟩ := List.any_eq_true.mp h
    exact hnone ⟨g, hg, by simpa using hle⟩
  have hone : 1 ≤ wanted := by
    by_contra hlt
    refine hnone ⟨⟨"nvidia.com/gpu", 16, 8, 2⟩, by simp [flavors], ?_⟩
    exact (not_le.mp hlt).le.trans (by norm_num)
  obtain ⟨x, hx, hx0⟩ := floatOfText_formatG hone
  have hshape : capacityShape wanted perWorker = .ok (formatG wanted,
      if perWorker.getD "" = "" then "1" else perWorker.getD "") := if_neg hany
  rw [unrounded_elsewhere hwanted hnone hx hx0]
  generalize (if perWorker.getD "" = "" then "1" else perWorker.getD "") = p at hshape ⊢
  cases hint : intOfText p with
  | ok n =>
    rw [answered_counted hwanted hnone hshape hx hint]
    simp
  | error e =>
    by_cases hpass : ∃ f ∈ flavors, le x (.finite f.memory) = true
    · obtain ⟨e', he'⟩ := flavorsOf_eq_error hx hint hpass
      refine iff_of_false ?_ ?_
      · simp only [capacity, hwanted, hshape, he', refusing, raising, ok_bind]
        exact id
      · intro h
        obtain ⟨f, hf, hle⟩ := hpass
        obtain ⟨n, hn, -⟩ := h f hf hle
        cases hn
    · have hnil := flavorsOf_eq_nil (p := p) hx fun f hf =>
        Bool.eq_false_iff.mpr fun hle => hpass ⟨f, hf, hle⟩
      rw [answered_of_flavors hwanted hshape hnil (by simp)]
      exact iff_of_true ⟨.inl rfl, by simp⟩ fun f hf hle => absurd ⟨f, hf, hle⟩ hpass

end Elsewhere

/-- A query is answered or refused, with no kind that a call could not get, just when the memory
is not printed as that of a smaller GPU that passes. -/
theorem answered_iff (memory perWorker : Option String) (free : Option Free) :
    Answered memory perWorker (capacity memory perWorker free) ↔ Unrounded memory perWorker := by
  cases hwanted : gpuMemory (memory.getD "") with
  | error refusal =>
    refine iff_of_true ?_ fun w hw => ?_
    · simp only [capacity, hwanted, refusing]
      exact trivial
    · rw [hwanted] at hw
      cases hw
  | ok wanted =>
    by_cases hpurdue : ∃ g ∈ flavors, wanted ≤ g.memory
    · exact answered_at_purdue hwanted hpurdue free
    · exact answered_elsewhere hwanted hpurdue free

/-- A memory just above the largest with no GPU for a worker divides by zero, one with a text that
is no number fails to parse, and one just above the smallest lists what a call does not get. -/
theorem not_answered_rounded :
    ¬Answered (some "16.0000001") (some "0") (capacity (some "16.0000001") (some "0") none) ∧
    ¬Answered (some "16.0000001") (some "abc") (capacity (some "16.0000001") (some "abc") none) ∧
    ¬Answered (some "5.0000001") none (capacity (some "5.0000001") none none) := by
  refine ⟨?_, ?_, ?_⟩
  · have hzero : capacity (some "16.0000001") (some "0") none =
        .error (.raised .zeroDivisionError) := by decide +kernel
    rw [hzero]
    exact id
  · have hvalue : capacity (some "16.0000001") (some "abc") none =
        .error (.raised .valueError) := by decide +kernel
    rw [hvalue]
    exact id
  · have hwanted : gpuMemory ((some "5.0000001").getD "") =
        .ok (5629499646803111 / 1125899906842624) := by decide +kernel
    have hpurdue : ∃ g ∈ flavors, (5629499646803111 / 1125899906842624 : ℚ) ≤ g.memory :=
      ⟨⟨"nvidia.com/gpu", 16, 8, 2⟩, by simp [flavors], by norm_num⟩
    have hread : gpuMemory (formatG (5629499646803111 / 1125899906842624)) = .ok 5 := by
      decide +kernel
    rw [answered_at_purdue hwanted hpurdue, unrounded_iff hwanted hpurdue hread]
    intro h
    rcases h le_rfl (by norm_num) with ⟨n, hn, hn1⟩ | ⟨refusal, hr⟩
    · obtain rfl : 1 = n := Except.ok.inj ((show intOfText "1" = .ok 1 by rfl).symm.trans hn)
      omega
    · cases hr

end PurdueAF.Ray

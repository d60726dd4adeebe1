import Mathlib.Algebra.Group.Action.Defs
import Mathlib.Algebra.GroupWithZero.Nat
import Mathlib.Algebra.Order.Ring.Int
import Mathlib.Algebra.Order.BigOperators.Group.List
import Mathlib.Tactic.Linarith
import PurdueAF.Dict

/-!
# The images of an agent's session

The runner works out how large an image an agent may read, and the plugin counts what a session
has taken. Sent on, an image is in base64, in groups of four characters for three bytes, of which
the last is padded.
-/
namespace PurdueAF.SessionImages

def alphabet : List Char :=
  "ABCDEFGHIJKLMNOPQRSTUVWXYZabcdefghijklmnopqrstuvwxyz0123456789+/".toList

def symbol (n : ℕ) : Char := alphabet.getD n '='

def base64 : List UInt8 → List Char
  | [] => []
  | [a] => [symbol (a.toNat / 4), symbol (a.toNat % 4 * 16), '=', '=']
  | [a, b] => [symbol (a.toNat / 4), symbol (a.toNat % 4 * 16 + b.toNat / 16),
      symbol (b.toNat % 16 * 4), '=']
  | a :: b :: c :: bytes => symbol (a.toNat / 4) :: symbol (a.toNat % 4 * 16 + b.toNat / 16) ::
      symbol (b.toNat % 16 * 4 + c.toNat / 64) :: symbol (c.toNat % 64) :: base64 bytes

theorem length_base64 (bytes : List UInt8) :
    (base64 bytes).length = 4 * ((bytes.length + 2) / 3) := by
  induction bytes using base64.induct with
  | case1 => rfl
  | case2 a => simp [base64]
  | case3 a b => simp [base64]
  | case4 a b c bytes ih =>
    simp only [base64, List.length_cons, ih]
    omega

example : String.ofList (base64 "Man!".toUTF8.toList) = "TWFuIQ==" := by decide +kernel

def tokenBytes : ℤ := 5

/-- What the runner reads of a role. -/
structure Role where
  context : ℤ
  images : ℤ
  maxBodyBytes : ℤ
  deriving DecidableEq, Repr

/-- What of the proxy's body cap a full context's text leaves. -/
def Role.room (r : Role) : ℤ := r.maxBodyBytes - r.context * tokenBytes

/-- The largest image a session of the role may read. -/
def imageBytes (r : Role) : ℤ :=
  if r.images = 0 then 0 else ((r.room * 3).fdiv 4).fdiv r.images

/-- The settings that the runner gives the plugin, by agent. -/
structure Settings where
  images : Dict String ℤ
  imageBytes : Dict String ℤ

/-- Why a session of the agent that holds `shown` images may not take another of `bytes`, or
nothing if it may. -/
def refused (settings : Settings) (agent : String) (shown bytes : ℕ) : String :=
  let cap := (settings.images.get? agent).getD 0
  if cap = 0 then
    let seeing := (settings.images.filter fun e => 0 < e.2).map Prod.fst
    "the " ++ agent ++ " role does not see images. These do: " ++ ", ".intercalate seeing ++ "."
  else if cap ≤ shown then
    "this session holds " ++ toString cap ++ " images, as many as one of " ++ agent ++ " takes. " ++
      "Finish with what you have seen; a fresh session takes further figures."
  else
    let most := (settings.imageBytes.get? agent).getD 0
    if most < bytes then
      "it is " ++ toString bytes ++ " bytes, over the " ++ toString most ++ " an image of " ++ agent ++
        " may take. Read a smaller copy: the page, or the figure's PDF, rendered with " ++
        "`pdftoppm -r 100 -png`, or a crop of the part to inspect."
    else ""

/-- The images a session takes of those it is offered one after the other, after those it holds. -/
def taken (settings : Settings) (agent : String) (held : List (List UInt8)) :
    List (List UInt8) → List (List UInt8)
  | [] => held
  | image :: offered =>
    if refused settings agent held.length image.length = "" then
      taken settings agent (held ++ [image]) offered
    else taken settings agent held offered

/-- What the runner gives the plugin of the agents' roles. -/
def settingsOf (roles : Dict String Role) : Settings :=
  ⟨roles.map fun e => (e.1, e.2.images), roles.map fun e => (e.1, SessionImages.imageBytes e.2)⟩

theorem refused_eq_empty_iff {roles : Dict String Role} {agent : String} {r : Role}
    (h : roles.get? agent = some r) (himages : 0 < r.images) (shown bytes : ℕ) :
    refused (settingsOf roles) agent shown bytes = "" ↔
      shown < r.images ∧ bytes ≤ imageBytes r := by
  have hne {head tail : String} (hhead : head.toList ≠ []) : head ++ tail ≠ "" := by
    intro hempty
    have htext := congrArg String.toList hempty
    rw [String.toList_append] at htext
    exact hhead (List.append_eq_nil_iff.mp htext).1
  simp only [refused, settingsOf, Dict.get?_map, h, Option.map_some, Option.getD_some, himages.ne',
    if_false]
  split_ifs with hfull hlarge
  · simp only [String.append_assoc]
    exact iff_of_false (hne (by decide)) (by omega)
  · simp only [String.append_assoc]
    exact iff_of_false (hne (by decide)) (by omega)
  · exact iff_of_true rfl (by omega)

section Session
variable {roles : Dict String Role} {agent : String} {r : Role}
  (h : roles.get? agent = some r) (himages : 0 < r.images)
include h himages

/-- Whatever a session is offered, it takes no more and no larger images than its role allows. -/
theorem taken_bounded {held : List (List UInt8)} (hlen : held.length ≤ r.images)
    (hall : ∀ image ∈ held, image.length ≤ imageBytes r) (offered : List (List UInt8)) :
    (taken (settingsOf roles) agent held offered).length ≤ r.images ∧
      ∀ image ∈ taken (settingsOf roles) agent held offered, image.length ≤ imageBytes r := by
  induction offered generalizing held with
  | nil => exact ⟨hlen, hall⟩
  | cons image offered ih =>
    unfold taken
    split_ifs with hre
    · obtain ⟨hshown, hbytes⟩ := (refused_eq_empty_iff h himages _ _).mp hre
      apply ih
      · rw [List.length_append, List.length_singleton]
        omega
      · intro i hi
        rcases List.mem_append.mp hi with hi | hi
        · exact hall i hi
        · obtain rfl := List.mem_singleton.mp hi
          exact hbytes
    · exact ih hlen hall

/-- Offered no more and no larger ones, it takes them all. -/
theorem taken_all (held : List (List UInt8)) {offered : List (List UInt8)}
    (hlen : held.length + offered.length ≤ r.images)
    (hall : ∀ image ∈ offered, image.length ≤ imageBytes r) :
    taken (settingsOf roles) agent held offered = held ++ offered := by
  induction offered generalizing held with
  | nil => rw [taken, List.append_nil]
  | cons image offered ih =>
    rw [List.length_cons] at hlen
    have hre : refused (settingsOf roles) agent held.length image.length = "" :=
      (refused_eq_empty_iff h himages _ _).mpr ⟨by push_cast at hlen; omega, hall image (by simp)⟩
    rw [taken, if_pos hre, ih]
    · rw [List.append_assoc, List.singleton_append]
    · rw [List.length_append, List.length_singleton]
      push_cast at hlen ⊢
      omega
    · exact fun i hi => hall i (by simp [hi])

end Session

/-- The images in base64, beside a full context's text. -/
def sent (r : Role) (images : List (List UInt8)) : ℤ :=
  ((images.map fun image => (base64 image).length).sum : ℕ) + r.context * tokenBytes

/-- The largest image takes as many groups as its share of the room holds, or one more where three
times what the shares leave over is at least a share's bytes. -/
theorem groups_imageBytes {r : Role} (himages : 0 < r.images) :
    (imageBytes r + 2) / 3 = r.room / (4 * r.images) +
      if 3 * (r.room % (4 * r.images)) < 4 * r.images then 0 else 1 := by
  have hpos : 0 < 4 * r.images := by omega
  have hbytes : imageBytes r = r.room * 3 / (4 * r.images) := by
    rw [imageBytes, if_neg himages.ne', Int.fdiv_eq_ediv_of_nonneg _ himages.le,
      Int.fdiv_eq_ediv_of_nonneg _ (by omega : (0 : ℤ) ≤ 4), Int.ediv_ediv_of_nonneg (by omega)]
  have hsplit : r.room * 3 = 3 * (r.room % (4 * r.images)) + 4 * r.images * (3 * (r.room / (4 * r.images))) := by
    have hmod := Int.emod_add_mul_ediv r.room (4 * r.images)
    linarith
  have hnonneg := Int.emod_nonneg r.room hpos.ne'
  have hlt := Int.emod_lt_of_pos r.room hpos
  rw [hbytes, hsplit, Int.add_mul_ediv_left _ _ hpos.ne']
  generalize r.room % (4 * r.images) = rest at *
  split_ifs with hsmall
  · rw [Int.ediv_eq_zero_of_lt (by omega) hsmall]
    omega
  · have hone : 1 ≤ 3 * rest / (4 * r.images) := (Int.le_ediv_iff_mul_le hpos).mpr (by omega)
    have htwo : 3 * rest / (4 * r.images) < 3 := Int.ediv_lt_of_lt_mul hpos (by omega)
    omega

theorem imageBytes_nonneg {r : Role} (himages : 0 < r.images) (hroom : 0 ≤ r.room) :
    0 ≤ imageBytes r := by
  rw [imageBytes, if_neg himages.ne', Int.fdiv_eq_ediv_of_nonneg _ himages.le,
    Int.fdiv_eq_ediv_of_nonneg _ (by omega : (0 : ℤ) ≤ 4)]
  positivity

/-- As many images as the role takes, each as large as it may be. -/
def fullSession (r : Role) : List (List UInt8) :=
  List.replicate r.images.toNat (List.replicate (imageBytes r).toNat 0)

theorem fullSession_bounded {r : Role} (himages : 0 < r.images) (hbytes : 0 ≤ imageBytes r) :
    (fullSession r).length ≤ r.images ∧ ∀ image ∈ fullSession r, image.length ≤ imageBytes r := by
  constructor
  · rw [fullSession, List.length_replicate, Int.toNat_of_nonneg himages.le]
  · intro image himage
    rw [List.eq_of_mem_replicate himage, List.length_replicate, Int.toNat_of_nonneg hbytes]

theorem sent_fullSession {r : Role} (himages : 0 < r.images) (hbytes : 0 ≤ imageBytes r) :
    sent r (fullSession r) = r.images * (4 * ((imageBytes r + 2) / 3)) + r.context * tokenBytes := by
  rw [sent, fullSession, List.map_replicate, List.sum_replicate, length_base64, List.length_replicate,
    smul_eq_mul]
  push_cast
  rw [Int.toNat_of_nonneg himages.le, Int.toNat_of_nonneg hbytes]

/-- Images that each take no more groups than their share of the room fit. -/
theorem sent_le {r : Role} (himages : 0 < r.images) (hroom : 0 ≤ r.room)
    (hsmall : 3 * (r.room % (4 * r.images)) < 4 * r.images) {images : List (List UInt8)}
    (hlen : images.length ≤ r.images) (hall : ∀ image ∈ images, image.length ≤ imageBytes r) :
    sent r images ≤ r.maxBodyBytes := by
  have hgroups := groups_imageBytes himages
  rw [if_pos hsmall, add_zero] at hgroups
  have heach : ∀ n ∈ images.map (fun image => (base64 image).length),
      n ≤ 4 * (r.room / (4 * r.images)).toNat := by
    intro n hn
    obtain ⟨image, himage, rfl⟩ := List.mem_map.mp hn
    have hbytes := hall image himage
    rw [length_base64]
    omega
  have hsum := List.sum_le_card_nsmul _ _ heach
  rw [List.length_map, smul_eq_mul] at hsum
  have hshare : 0 ≤ r.room / (4 * r.images) := Int.ediv_nonneg hroom (by omega)
  have hcast : ((images.map fun image => (base64 image).length).sum : ℤ) ≤
      images.length * (4 * (r.room / (4 * r.images))) := by
    have hle : ((images.map fun image => (base64 image).length).sum : ℤ) ≤
        images.length * (4 * (r.room / (4 * r.images)).toNat) := by exact_mod_cast hsum
    rwa [Int.toNat_of_nonneg hshare] at hle
  have hshares : images.length * (4 * (r.room / (4 * r.images))) ≤
      r.images * (4 * (r.room / (4 * r.images))) := mul_le_mul_of_nonneg_right hlen (by omega)
  have hmod := Int.emod_add_mul_ediv r.room (4 * r.images)
  have hnonneg := Int.emod_nonneg r.room (by omega : 4 * r.images ≠ 0)
  unfold sent Role.room at *
  linarith

/-- All that a session may take fits within the body cap just when three times what the images'
shares of the room, in groups of four characters, leave over is less than such a group an image. -/
theorem sent_le_iff {r : Role} (himages : 0 < r.images)
    (hcontext : r.context * tokenBytes ≤ r.maxBodyBytes) :
    (∀ (roles : Dict String Role) agent, roles.get? agent = some r → ∀ images,
      (∃ offered, taken (settingsOf roles) agent [] offered = images) ↔
        images.length ≤ r.images ∧ ∀ image ∈ images, image.length ≤ imageBytes r) ∧
    ((∀ images : List (List UInt8), images.length ≤ r.images →
      (∀ image ∈ images, image.length ≤ imageBytes r) → sent r images ≤ r.maxBodyBytes) ↔
      3 * (r.room % (4 * r.images)) < 4 * r.images) := by
  have hroom : 0 ≤ r.room := by
    unfold Role.room
    omega
  refine ⟨fun roles agent hrole images => ⟨?_, fun ⟨hlen, hall⟩ => ?_⟩, ?_, ?_⟩
  · rintro ⟨offered, rfl⟩
    have hnone : ([] : List (List UInt8)).length ≤ r.images := himages.le
    exact taken_bounded hrole himages hnone (by simp) offered
  · exact ⟨images, taken_all hrole himages [] (by simpa using hlen) hall⟩
  · intro h
    have hbytes := imageBytes_nonneg himages hroom
    obtain ⟨hlen, hall⟩ := fullSession_bounded himages hbytes
    have hfull := h (fullSession r) hlen hall
    rw [sent_fullSession himages hbytes] at hfull
    by_contra hlarge
    have hgroups := groups_imageBytes himages
    rw [if_neg hlarge] at hgroups
    rw [hgroups] at hfull
    have hmod := Int.emod_add_mul_ediv r.room (4 * r.images)
    have hlt := Int.emod_lt_of_pos r.room (by omega : 0 < 4 * r.images)
    unfold Role.room at *
    nlinarith
  · intro hsmall images hlen hall
    exact sent_le himages hroom hsmall hlen hall

/-- Eight images beside a context of 100,000 tokens, at the proxy's own cap. -/
theorem sent_le_eight :
    sent ⟨100000, 8, 3670016⟩ (fullSession ⟨100000, 8, 3670016⟩) ≤ 3670016 := by
  obtain ⟨hlen, hall⟩ := fullSession_bounded (r := ⟨100000, 8, 3670016⟩) (by decide) (by decide)
  exact (sent_le_iff (by decide) (by decide)).2.mpr (by decide) _ hlen hall

/-- At a cap of 14 bytes more, eight full images pass it. -/
theorem not_sent_le :
    ¬∀ r : Role, 0 < r.images → r.context * tokenBytes ≤ r.maxBodyBytes →
      ∀ images : List (List UInt8), images.length ≤ r.images →
        (∀ image ∈ images, image.length ≤ imageBytes r) → sent r images ≤ r.maxBodyBytes := by
  intro h
  have hbytes : imageBytes ⟨100000, 8, 3670030⟩ = 297190 := by decide
  obtain ⟨hlen, hall⟩ := fullSession_bounded (r := ⟨100000, 8, 3670030⟩) (by decide) (by decide)
  have hfull := h ⟨100000, 8, 3670030⟩ (by decide) (by decide) _ hlen hall
  rw [sent_fullSession (by decide) (by decide), hbytes] at hfull
  exact absurd hfull (by decide)

end PurdueAF.SessionImages

import Mathlib.Data.List.Chain
import Mathlib.Data.Nat.Bitwise
import Mathlib.Tactic

/-!
# Code points as bytes and as 16-bit units

The UTF-8 spelling of a code point, read back by a decoder that goes by the lead byte only,
and the UTF-16 spelling, read back by a decoder that joins a high unit with the low unit
after it and passes every other unit through. Lone surrogates are code points here, so both
spellings are total below 0x110000.
-/

namespace SysvNt.CodeUnits

def trailByte (cp : ℕ) : UInt8 := UInt8.ofNat (0x80 ||| cp &&& 0x3f)

def utf8 (cp : ℕ) : List UInt8 :=
  if cp < 0x80 then [UInt8.ofNat cp]
  else if cp < 0x800 then [UInt8.ofNat (0xc0 ||| cp >>> 6), trailByte cp]
  else if cp < 0x10000 then
    [UInt8.ofNat (0xe0 ||| cp >>> 12), trailByte (cp >>> 6), trailByte cp]
  else
    [UInt8.ofNat (0xf0 ||| cp >>> 18), trailByte (cp >>> 12), trailByte (cp >>> 6), trailByte cp]

/-- The bits of a lead byte and the length of the sequence it starts. -/
def lead (c : UInt8) : Option (ℕ × ℕ) :=
  if c < 0x80 then some (c.toNat, 1)
  else if c &&& 0xe0 = 0xc0 then some ((c &&& 0x1f).toNat, 2)
  else if c &&& 0xf0 = 0xe0 then some ((c &&& 0x0f).toNat, 3)
  else if c &&& 0xf8 = 0xf0 then some ((c &&& 0x07).toNat, 4)
  else none

def trail : ℕ → ℕ → List UInt8 → Option (ℕ × List UInt8)
  | 0, cp, s => some (cp, s)
  | _ + 1, _, [] => none
  | k + 1, cp, d :: s =>
    if d &&& 0xc0 ≠ 0x80 then none else trail k (cp <<< 6 ||| (d &&& 0x3f).toNat) s

/-- The code point at the start of a text, by its lead byte only. -/
def utf8Next : List UInt8 → Option (ℕ × List UInt8)
  | [] => none
  | c :: s => (lead c).bind fun l => trail (l.2 - 1) l.1 s

def isHigh (cp : ℕ) : Bool := 0xd800 ≤ cp && cp < 0xdc00
def isLow (cp : ℕ) : Bool := 0xdc00 ≤ cp && cp < 0xe000

def utf16 (cp : ℕ) : List UInt16 :=
  if 0x10000 ≤ cp then
    [UInt16.ofNat (0xd800 + (cp - 0x10000) >>> 10), UInt16.ofNat (0xdc00 + ((cp - 0x10000) &&& 0x3ff))]
  else [UInt16.ofNat cp]

/-- The code point at the start of a unit list and the units after it. -/
def utf16Next (u : UInt16) : List UInt16 → ℕ × List UInt16
  | [] => (u.toNat, [])
  | v :: w =>
    if isHigh u.toNat && isLow v.toNat then
      (0x10000 + (u.toNat - 0xd800) <<< 10 + (v.toNat - 0xdc00), w)
    else (u.toNat, v :: w)

/-- The code points of a unit list: a high unit and a low one right after it are joined. -/
def codePoints : List UInt16 → List ℕ
  | [] => []
  | [u] => [u.toNat]
  | u :: v :: w =>
    if isHigh u.toNat && isLow v.toNat then
      (0x10000 + (u.toNat - 0xd800) <<< 10 + (v.toNat - 0xdc00)) :: codePoints w
    else u.toNat :: codePoints (v :: w)

def NoSplit (cps : List ℕ) : Prop := cps.IsChain fun a b => ¬ (isHigh a = true ∧ isLow b = true)

theorem trail_length {k cp cp' : ℕ} {s s' : List UInt8} (h : trail k cp s = some (cp', s')) :
    s'.length ≤ s.length := by
  induction k generalizing cp s with
  | zero =>
      cases h
      exact le_rfl
  | succ k ih =>
      cases s with
      | nil => cases h
      | cons d s =>
          rw [trail] at h
          split_ifs at h
          exact (ih h).trans (Nat.le_succ _)

theorem utf8Next_length {c : UInt8} {s s' : List UInt8} {cp : ℕ}
    (h : utf8Next (c :: s) = some (cp, s')) : s'.length < (c :: s).length := by
  obtain ⟨l, _, ht⟩ := Option.bind_eq_some_iff.mp h
  exact Nat.lt_succ_of_le (trail_length ht)

theorem length_utf16Next_le (u : UInt16) (w : List UInt16) :
    (utf16Next u w).2.length ≤ w.length := by
  cases w with
  | nil => exact le_rfl
  | cons v w =>
      rw [utf16Next]
      split_ifs
      · exact Nat.le_succ _
      · exact le_rfl

theorem trailByte_spec (cp : ℕ) :
    trailByte cp &&& 0xc0 = 0x80 ∧ (trailByte cp &&& 0x3f).toNat = cp % 64 := by
  have hall : ∀ y : Fin 64, UInt8.ofNat (0x80 ||| y.val) &&& 0xc0 = 0x80 ∧
      (UInt8.ofNat (0x80 ||| y.val) &&& 0x3f).toNat = y.val := by decide
  have hmod : cp &&& 0x3f = cp % 64 := Nat.and_two_pow_sub_one_eq_mod cp 6
  rw [trailByte, hmod]
  exact hall ⟨cp % 64, Nat.mod_lt _ (by omega)⟩

theorem trail_zero (cp : ℕ) (s : List UInt8) : trail 0 cp s = some (cp, s) := rfl

theorem trail_trailByte (k cp x : ℕ) (s : List UInt8) :
    trail (k + 1) cp (trailByte x :: s) = trail k (cp * 64 + x % 64) s := by
  obtain ⟨h1, h2⟩ := trailByte_spec x
  have hor : cp <<< 6 ||| x % 64 = cp * 64 + x % 64 := by
    rw [← Nat.shiftLeft_add_eq_or_of_lt (show x % 64 < 2 ^ 6 by omega), Nat.shiftLeft_eq]
  rw [trail, if_neg (by simpa using h1), h2, hor]

theorem lead_one {y : ℕ} (h : y < 0x80) : lead (UInt8.ofNat y) = some (y, 1) := by
  have hall : ∀ y : Fin 0x80, lead (UInt8.ofNat y.val) = some (y.val, 1) := by decide
  exact hall ⟨y, h⟩

theorem lead_two {y : ℕ} (h : y < 0x20) : lead (UInt8.ofNat (0xc0 ||| y)) = some (y, 2) := by
  have hall : ∀ y : Fin 0x20, lead (UInt8.ofNat (0xc0 ||| y.val)) = some (y.val, 2) := by decide
  exact hall ⟨y, h⟩

theorem lead_three {y : ℕ} (h : y < 0x10) : lead (UInt8.ofNat (0xe0 ||| y)) = some (y, 3) := by
  have hall : ∀ y : Fin 0x10, lead (UInt8.ofNat (0xe0 ||| y.val)) = some (y.val, 3) := by decide
  exact hall ⟨y, h⟩

theorem lead_four {y : ℕ} (h : y < 0x8) : lead (UInt8.ofNat (0xf0 ||| y)) = some (y, 4) := by
  have hall : ∀ y : Fin 0x8, lead (UInt8.ofNat (0xf0 ||| y.val)) = some (y.val, 4) := by decide
  exact hall ⟨y, h⟩

/-- The decoder reads back what the shortest form spells. -/
theorem utf8Next_utf8 {cp : ℕ} (h : cp < 0x110000) (s : List UInt8) :
    utf8Next (utf8 cp ++ s) = some (cp, s) := by
  rw [utf8]
  split_ifs with h1 h2 h3
  · simp only [List.cons_append, List.nil_append, utf8Next, lead_one h1, Option.bind_some,
      Nat.reduceSub, trail_zero]
  · have hlead := lead_two (y := cp >>> 6) (by rw [Nat.shiftRight_eq_div_pow]; omega)
    have hcp : cp >>> 6 * 64 + cp % 64 = cp := by
      rw [Nat.shiftRight_eq_div_pow]
      omega
    simp only [List.cons_append, List.nil_append, utf8Next, hlead, Option.bind_some,
      Nat.reduceSub, trail_trailByte, trail_zero, hcp]
  · have hlead := lead_three (y := cp >>> 12) (by rw [Nat.shiftRight_eq_div_pow]; omega)
    have hcp : (cp >>> 12 * 64 + cp >>> 6 % 64) * 64 + cp % 64 = cp := by
      simp only [Nat.shiftRight_eq_div_pow]
      omega
    simp only [List.cons_append, List.nil_append, utf8Next, hlead, Option.bind_some,
      Nat.reduceSub, trail_trailByte, trail_zero, hcp]
  · have hlead := lead_four (y := cp >>> 18) (by rw [Nat.shiftRight_eq_div_pow]; omega)
    have hcp : ((cp >>> 18 * 64 + cp >>> 12 % 64) * 64 + cp >>> 6 % 64) * 64 + cp % 64 = cp := by
      simp only [Nat.shiftRight_eq_div_pow]
      omega
    simp only [List.cons_append, List.nil_append, utf8Next, hlead, Option.bind_some,
      Nat.reduceSub, trail_trailByte, trail_zero, hcp]

theorem trailByte_not_ascii (cp : ℕ) : 0x80 ≤ (trailByte cp).toNat := by
  have hall : ∀ y : Fin 64, 0x80 ≤ (UInt8.ofNat (0x80 ||| y.val)).toNat := by decide
  have hmod : cp &&& 0x3f = cp % 64 := Nat.and_two_pow_sub_one_eq_mod cp 6
  rw [trailByte, hmod]
  exact hall ⟨cp % 64, Nat.mod_lt _ (by omega)⟩

/-- A byte with its top bit set is not an ASCII one. -/
theorem leadByte_not_ascii {a y : ℕ} (ha : 0x80 ≤ a) (ha' : a < 256) (hy : y < 256) :
    0x80 ≤ (UInt8.ofNat (a ||| y)).toNat := by
  have hle : a ≤ a ||| y := Nat.left_le_or
  have hlt : a ||| y < 2 ^ 8 := Nat.or_lt_two_pow ha' hy
  rw [UInt8.toNat_ofNat_of_lt' hlt]
  omega

/-- An ASCII byte occurs in a spelling only as the character itself. -/
theorem mem_utf8_ascii {cp : ℕ} (h : cp < 0x110000) {b : UInt8} (hb : b.toNat < 0x80) :
    b ∈ utf8 cp ↔ cp = b.toNat := by
  have htrail : ∀ x, b ≠ trailByte x := by
    rintro x rfl
    have := trailByte_not_ascii x
    omega
  have hlead : ∀ {a y : ℕ}, 0x80 ≤ a → a < 256 → y < 256 → b ≠ UInt8.ofNat (a ||| y) := by
    rintro a y h1 h2 h3 rfl
    have := leadByte_not_ascii h1 h2 h3
    omega
  rw [utf8]
  split_ifs with h1 h2 h3
  · rw [List.mem_singleton]
    constructor
    · rintro rfl
      exact (UInt8.toNat_ofNat_of_lt' (by simp [UInt8.size]; omega)).symm
    · rintro rfl
      exact (UInt8.ofNat_toNat).symm
  · have hy := hlead (a := 0xc0) (y := cp >>> 6) (by omega) (by omega)
      (by rw [Nat.shiftRight_eq_div_pow]; omega)
    simp only [List.mem_cons, List.not_mem_nil, or_false, hy, htrail, false_iff]
    omega
  · have hy := hlead (a := 0xe0) (y := cp >>> 12) (by omega) (by omega)
      (by rw [Nat.shiftRight_eq_div_pow]; omega)
    simp only [List.mem_cons, List.not_mem_nil, or_false, hy, htrail, false_iff]
    omega
  · have hy := hlead (a := 0xf0) (y := cp >>> 18) (by omega) (by omega)
      (by rw [Nat.shiftRight_eq_div_pow]; omega)
    simp only [List.mem_cons, List.not_mem_nil, or_false, hy, htrail, false_iff]
    omega

theorem utf8_ne_nil (cp : ℕ) : utf8 cp ≠ [] := by
  rw [utf8]
  split_ifs <;> simp

theorem mem_flatMap_utf8_ascii {cps : List ℕ} (h : ∀ cp ∈ cps, cp < 0x110000) {b : UInt8}
    (hb : b.toNat < 0x80) : b ∈ cps.flatMap utf8 ↔ b.toNat ∈ cps := by
  rw [List.mem_flatMap]
  constructor
  · rintro ⟨cp, hcp, hmem⟩
    rw [← (mem_utf8_ascii (h cp hcp) hb).mp hmem]
    exact hcp
  · intro hmem
    exact ⟨b.toNat, hmem, (mem_utf8_ascii (h _ hmem) hb).mpr rfl⟩

theorem codePoints_cons (u : UInt16) (w : List UInt16) :
    codePoints (u :: w) = (utf16Next u w).1 :: codePoints (utf16Next u w).2 := by
  cases w with
  | nil => rfl
  | cons v w =>
      rw [codePoints, utf16Next]
      split_ifs <;> rfl

theorem isHigh_iff {cp : ℕ} : isHigh cp = true ↔ 0xd800 ≤ cp ∧ cp < 0xdc00 := by simp [isHigh]

theorem isLow_iff {cp : ℕ} : isLow cp = true ↔ 0xdc00 ≤ cp ∧ cp < 0xe000 := by simp [isLow]

theorem utf16_of_lt {cp : ℕ} (h : cp < 0x10000) : utf16 cp = [UInt16.ofNat cp] := by
  rw [utf16, if_neg (by omega)]

theorem utf16_toNat (u : UInt16) : utf16 u.toNat = [u] := by
  rw [utf16_of_lt u.toNat_lt, UInt16.ofNat_toNat]

/-- The two units of a code point above the first plane. -/
theorem utf16_pair {cp : ℕ} (h1 : 0x10000 ≤ cp) (h2 : cp < 0x110000) :
    ∃ u v : UInt16, utf16 cp = [u, v] ∧ isHigh u.toNat = true ∧ isLow v.toNat = true ∧
      0x10000 + (u.toNat - 0xd800) <<< 10 + (v.toNat - 0xdc00) = cp := by
  have hmod : (cp - 0x10000) &&& 0x3ff = (cp - 0x10000) % 1024 :=
    Nat.and_two_pow_sub_one_eq_mod _ 10
  have hdiv : (cp - 0x10000) >>> 10 = (cp - 0x10000) / 1024 := Nat.shiftRight_eq_div_pow _ 10
  refine ⟨_, _, by rw [utf16, if_pos h1], ?_, ?_, ?_⟩
  · rw [hdiv, UInt16.toNat_ofNat_of_lt' (by simp [UInt16.size]; omega), isHigh_iff]
    omega
  · rw [hmod, UInt16.toNat_ofNat_of_lt' (by simp [UInt16.size]; omega), isLow_iff]
    omega
  · rw [hdiv, hmod, UInt16.toNat_ofNat_of_lt' (by simp [UInt16.size]; omega),
      UInt16.toNat_ofNat_of_lt' (by simp [UInt16.size]; omega), Nat.shiftLeft_eq]
    omega

theorem utf16_join {u v : UInt16} (hu : isHigh u.toNat = true) (hv : isLow v.toNat = true) :
    utf16 (0x10000 + (u.toNat - 0xd800) <<< 10 + (v.toNat - 0xdc00)) = [u, v] := by
  rw [isHigh_iff] at hu
  rw [isLow_iff] at hv
  have hval : 0x10000 + (u.toNat - 0xd800) <<< 10 + (v.toNat - 0xdc00) =
      0x10000 + ((u.toNat - 0xd800) * 1024 + (v.toNat - 0xdc00)) := by
    rw [Nat.shiftLeft_eq]
    omega
  rw [hval, utf16, if_pos (by omega), Nat.add_sub_cancel_left]
  have hmod : ((u.toNat - 0xd800) * 1024 + (v.toNat - 0xdc00)) &&& 0x3ff = v.toNat - 0xdc00 := by
    have := Nat.and_two_pow_sub_one_eq_mod ((u.toNat - 0xd800) * 1024 + (v.toNat - 0xdc00)) 10
    rw [show (0x3ff : ℕ) = 2 ^ 10 - 1 from rfl, this]
    omega
  have hdiv : ((u.toNat - 0xd800) * 1024 + (v.toNat - 0xdc00)) >>> 10 = u.toNat - 0xd800 := by
    rw [Nat.shiftRight_eq_div_pow]
    omega
  rw [hmod, hdiv, show 0xd800 + (u.toNat - 0xd800) = u.toNat by omega,
    show 0xdc00 + (v.toNat - 0xdc00) = v.toNat by omega, UInt16.ofNat_toNat, UInt16.ofNat_toNat]

theorem flatMap_utf16_codePoints (w : List UInt16) : (codePoints w).flatMap utf16 = w := by
  induction w using codePoints.induct with
  | case1 => rfl
  | case2 u => rw [codePoints, List.flatMap_cons, utf16_toNat, List.flatMap_nil, List.append_nil]
  | case3 u v w h ih =>
      rw [Bool.and_eq_true] at h
      rw [codePoints, if_pos (by rw [Bool.and_eq_true]; exact h), List.flatMap_cons,
        utf16_join h.1 h.2, ih]
      rfl
  | case4 u v w h ih =>
      rw [codePoints, if_neg h, List.flatMap_cons, utf16_toNat, ih]
      rfl

theorem codePoints_lt (w : List UInt16) : ∀ cp ∈ codePoints w, cp < 0x110000 := by
  induction w using codePoints.induct with
  | case1 => simp [codePoints]
  | case2 u =>
      have := u.toNat_lt
      simp only [codePoints, List.mem_singleton, forall_eq]
      omega
  | case3 u v w h ih =>
      rw [Bool.and_eq_true, isHigh_iff, isLow_iff] at h
      rw [codePoints, if_pos (by rw [Bool.and_eq_true, isHigh_iff, isLow_iff]; exact h)]
      intro cp hcp
      rcases List.mem_cons.mp hcp with he | hcp
      · rw [he, Nat.shiftLeft_eq]
        omega
      · exact ih cp hcp
  | case4 u v w h ih =>
      rw [codePoints, if_neg h]
      intro cp hcp
      rcases List.mem_cons.mp hcp with rfl | hcp
      · have := u.toNat_lt
        omega
      · exact ih cp hcp

/-- Only a low unit decodes to a low surrogate. -/
theorem isLow_utf16Next {v : UInt16} {w : List UInt16} (h : isLow (utf16Next v w).1 = true) :
    isLow v.toNat = true := by
  cases w with
  | nil => exact h
  | cons u w =>
      rw [utf16Next] at h
      split_ifs at h
      · rw [isLow_iff] at h
        dsimp only at h
        omega
      · exact h

theorem codePoints_noSplit (w : List UInt16) : NoSplit (codePoints w) := by
  induction w using codePoints.induct with
  | case1 => exact List.IsChain.nil
  | case2 u => exact List.IsChain.singleton _
  | case3 u v w h ih =>
      rw [Bool.and_eq_true, isHigh_iff, isLow_iff] at h
      rw [codePoints, if_pos (by rw [Bool.and_eq_true, isHigh_iff, isLow_iff]; exact h)]
      cases hw : codePoints w with
      | nil => exact List.IsChain.singleton _
      | cons cp cps =>
          rw [hw] at ih
          refine List.IsChain.cons_cons ?_ ih
          rintro ⟨hhigh, _⟩
          rw [isHigh_iff] at hhigh
          omega
  | case4 u v w h ih =>
      rw [codePoints, if_neg h]
      rw [codePoints_cons] at ih ⊢
      refine List.IsChain.cons_cons ?_ ih
      rintro ⟨hhigh, hlow⟩
      exact h (by rw [hhigh, isLow_utf16Next hlow]; rfl)

/-- The first unit of a spelled list is a low one only if the first code point is. -/
theorem flatMap_utf16_head (c : ℕ) (cps : List ℕ) (hc : c < 0x110000) :
    ∃ v w, (c :: cps).flatMap utf16 = v :: w ∧ (isLow v.toNat = true → isLow c = true) := by
  rw [List.flatMap_cons]
  by_cases h : 0x10000 ≤ c
  · obtain ⟨u, v, huv, hu, _, _⟩ := utf16_pair h hc
    refine ⟨u, v :: cps.flatMap utf16, by rw [huv]; rfl, ?_⟩
    intro hl
    rw [isHigh_iff] at hu
    rw [isLow_iff] at hl
    omega
  · refine ⟨UInt16.ofNat c, cps.flatMap utf16, by rw [utf16_of_lt (by omega)]; rfl, ?_⟩
    rw [UInt16.toNat_ofNat_of_lt' (by simp [UInt16.size]; omega)]
    exact fun hl => hl

theorem codePoints_flatMap_utf16 (cps : List ℕ) (hlt : ∀ cp ∈ cps, cp < 0x110000)
    (hsplit : NoSplit cps) : codePoints (cps.flatMap utf16) = cps := by
  induction cps with
  | nil => rfl
  | cons cp cps ih =>
      have hcp := hlt cp List.mem_cons_self
      have ih' := ih (fun c hc => hlt c (List.mem_cons_of_mem _ hc)) hsplit.tail
      rw [List.flatMap_cons]
      by_cases h : 0x10000 ≤ cp
      · obtain ⟨u, v, huv, hu, hv, hval⟩ := utf16_pair h hcp
        rw [huv, List.cons_append, List.cons_append, List.nil_append, codePoints,
          if_pos (by rw [hu, hv]; rfl), hval, ih']
      · have hnat : (UInt16.ofNat cp).toNat = cp :=
          UInt16.toNat_ofNat_of_lt' (by simp [UInt16.size]; omega)
        rw [utf16_of_lt (by omega), List.singleton_append]
        cases cps with
        | nil =>
            rw [List.flatMap_nil, codePoints, hnat]
        | cons c cps =>
            obtain ⟨v, w, hvw, hlow⟩ := flatMap_utf16_head c cps (hlt c (by simp))
            rw [hvw] at ih' ⊢
            have hpair : ¬ (isHigh (UInt16.ofNat cp).toNat && isLow v.toNat) = true := by
              rw [Bool.and_eq_true, hnat]
              rintro ⟨hh, hl⟩
              exact (List.isChain_cons_cons.mp hsplit).1 ⟨hh, hlow hl⟩
            rw [codePoints, if_neg hpair, hnat, ih']

/-- A unit that is no surrogate occurs in a spelling only as the code point itself. -/
theorem mem_utf16 {cp : ℕ} (hcp : cp < 0x110000) {u : UInt16} (hh : isHigh u.toNat = false)
    (hl : isLow u.toNat = false) : u ∈ utf16 cp ↔ cp = u.toNat := by
  by_cases h : 0x10000 ≤ cp
  · obtain ⟨a, b, hab, ha, hb, _⟩ := utf16_pair h hcp
    have hlt := u.toNat_lt
    rw [hab, List.mem_cons, List.mem_singleton]
    constructor
    · rintro (rfl | rfl)
      · rw [ha] at hh
        cases hh
      · rw [hb] at hl
        cases hl
    · intro he
      omega
  · rw [utf16_of_lt (by omega), List.mem_singleton]
    constructor
    · rintro rfl
      exact (UInt16.toNat_ofNat_of_lt' (by simp [UInt16.size]; omega)).symm
    · rintro rfl
      exact (UInt16.ofNat_toNat).symm

theorem mem_flatMap_utf16 {cps : List ℕ} (h : ∀ cp ∈ cps, cp < 0x110000) {u : UInt16}
    (hh : isHigh u.toNat = false) (hl : isLow u.toNat = false) :
    u ∈ cps.flatMap utf16 ↔ u.toNat ∈ cps := by
  rw [List.mem_flatMap]
  constructor
  · rintro ⟨cp, hcp, hmem⟩
    rw [← (mem_utf16 (h cp hcp) hh hl).mp hmem]
    exact hcp
  · intro hmem
    exact ⟨u.toNat, hmem, (mem_utf16 (h _ hmem) hh hl).mpr rfl⟩

/-- A map of code points that keeps the planes apart shows in the units unless it is the
identity. -/
theorem eq_of_flatMap_utf16_map {f : ℕ → ℕ} {cps : List ℕ}
    (hf : ∀ cp ∈ cps, f cp = cp ∨ f cp < 0x10000 ∧ cp < 0x10000)
    (h : (cps.map f).flatMap utf16 = cps.flatMap utf16) : ∀ cp ∈ cps, f cp = cp := by
  induction cps with
  | nil => simp
  | cons c cps ih =>
      rw [List.map_cons, List.flatMap_cons, List.flatMap_cons] at h
      have hc := hf c List.mem_cons_self
      have hlen : (utf16 (f c)).length = (utf16 c).length := by
        rcases hc with he | ⟨h1, h2⟩
        · rw [he]
        · rw [utf16_of_lt h1, utf16_of_lt h2]
          rfl
      obtain ⟨hhead, htail⟩ := List.append_inj h hlen
      have hfc : f c = c := by
        rcases hc with he | ⟨h1, h2⟩
        · exact he
        · rw [utf16_of_lt h1, utf16_of_lt h2, List.cons.injEq] at hhead
          have hnat := congrArg UInt16.toNat hhead.1
          rwa [UInt16.toNat_ofNat_of_lt' h1, UInt16.toNat_ofNat_of_lt' h2] at hnat
      intro cp hcp
      rcases List.mem_cons.mp hcp with rfl | hcp
      · exact hfc
      · exact ih (fun c hc => hf c (List.mem_cons_of_mem _ hc)) htail cp hcp

end SysvNt.CodeUnits

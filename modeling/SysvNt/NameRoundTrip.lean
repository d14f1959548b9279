import SysvNt.Names

/-!
# Which names survive the host

A name comes back from the host as it was given exactly when it is spelled in shortest
forms, stays out of the escape's private range and never spells a surrogate pair as two
characters. A host name comes back from a listing as itself exactly when its private-use
units are escapes that `name_to_wide` makes.
-/

namespace SysvNt

open CodeUnits

/-- Shortest forms up to U+10FFFF, none in U+F000..U+F0FF, no high surrogate right before a
low one. -/
def CleanName (n : Bytes) : Prop :=
  ∃ cps : List ℕ, n = cps.flatMap utf8 ∧
    (∀ cp ∈ cps, cp < 0x110000 ∧ ¬ (0xf000 ≤ cp ∧ cp ≤ 0xf0ff)) ∧ NoSplit cps

theorem refused_lt {cp : ℕ} (h : refused cp = true) : cp < 0x80 := by
  simp only [refused, Bool.or_eq_true, decide_eq_true_eq] at h
  omega

theorem escape_lt {cp : ℕ} (h : cp < 0x110000) : escape cp < 0x110000 := by
  rw [escape]
  split_ifs with hr
  · have := refused_lt hr
    omega
  · exact h

theorem unescape_lt {cp : ℕ} (h : cp < 0x110000) : unescape cp < 0x110000 := by
  rw [unescape]
  split_ifs <;> omega

theorem unescape_escape {cp : ℕ} (h : ¬ (0xf000 ≤ cp ∧ cp ≤ 0xf0ff)) :
    unescape (escape cp) = cp := by
  rw [escape]
  split_ifs with hr
  · have := refused_lt hr
    rw [unescape, if_pos (by omega)]
    omega
  · rw [unescape, if_neg h]

theorem unescape_not_private (cp : ℕ) : ¬ (0xf000 ≤ unescape cp ∧ unescape cp ≤ 0xf0ff) := by
  rw [unescape]
  split_ifs with h
  · omega
  · exact h

theorem surrogate_escape (cp : ℕ) :
    isHigh (escape cp) = isHigh cp ∧ isLow (escape cp) = isLow cp := by
  rw [escape]
  split_ifs with hr
  · have := refused_lt hr
    constructor
    · rw [Bool.eq_iff_iff, isHigh_iff, isHigh_iff]
      omega
    · rw [Bool.eq_iff_iff, isLow_iff, isLow_iff]
      omega
  · exact ⟨rfl, rfl⟩

theorem surrogate_unescape (cp : ℕ) :
    isHigh (unescape cp) = isHigh cp ∧ isLow (unescape cp) = isLow cp := by
  rw [unescape]
  split_ifs with hr
  · constructor
    · rw [Bool.eq_iff_iff, isHigh_iff, isHigh_iff]
      omega
    · rw [Bool.eq_iff_iff, isLow_iff, isLow_iff]
      omega
  · exact ⟨rfl, rfl⟩

theorem noSplit_map {f : ℕ → ℕ} (hf : ∀ cp, isHigh (f cp) = isHigh cp ∧ isLow (f cp) = isLow cp)
    {cps : List ℕ} (h : NoSplit cps) : NoSplit (cps.map f) := by
  rw [NoSplit, List.isChain_map]
  refine h.imp ?_
  intro a b hab
  rwa [(hf a).1, (hf b).2]

theorem map_unescape_lt (w : List UInt16) :
    ∀ cp ∈ (codePoints w).map unescape, cp < 0x110000 := by
  intro cp hcp
  obtain ⟨c, hc, rfl⟩ := List.mem_map.mp hcp
  exact unescape_lt (codePoints_lt w c hc)

/-- Whatever a listing spells is clean. -/
theorem cleanName_spelled (w : List UInt16) : CleanName (spelled w) := by
  refine ⟨(codePoints w).map unescape, rfl, ?_, noSplit_map surrogate_unescape (codePoints_noSplit w)⟩
  intro cp hcp
  refine ⟨map_unescape_lt w cp hcp, ?_⟩
  obtain ⟨c, _, rfl⟩ := List.mem_map.mp hcp
  exact unescape_not_private c

/-- What the host stores for a clean name spells that name. -/
theorem spelled_of_clean {cps : List ℕ}
    (hcps : ∀ cp ∈ cps, cp < 0x110000 ∧ ¬ (0xf000 ≤ cp ∧ cp ≤ 0xf0ff)) (hsplit : NoSplit cps) :
    spelled ((cps.map escape).flatMap utf16) = cps.flatMap utf8 := by
  have hlt : ∀ cp ∈ cps.map escape, cp < 0x110000 := by
    intro cp hcp
    obtain ⟨c, hc, rfl⟩ := List.mem_map.mp hcp
    exact escape_lt (hcps c hc).1
  have hid : (cps.map escape).map unescape = cps := by
    rw [List.map_map]
    conv_rhs => rw [← List.map_id cps]
    refine List.map_congr_left fun c hc => ?_
    exact unescape_escape (hcps c hc).2
  rw [spelled, codePoints_flatMap_utf16 _ hlt (noSplit_map surrogate_escape hsplit), hid]

/-- What `name_to_wide` makes of a clean name without a NUL. -/
theorem nameToWide_clean {n : Bytes} {w : List UInt16} {cap : ℕ} (hn : CleanName n) (h0 : 0 ∉ n)
    (hw : nameToWide n cap = some w) :
    ∃ cps : List ℕ, n = cps.flatMap utf8 ∧ w = (cps.map escape).flatMap utf16 ∧ spelled w = n ∧
      ∀ cp ∈ cps, cp < 0x110000 := by
  obtain ⟨cps, rfl, hcps, hsplit⟩ := hn
  have hlt : ∀ cp ∈ cps, cp < 0x110000 := fun cp hcp => (hcps cp hcp).1
  have hne : ∀ cp ∈ cps, cp < 0x110000 ∧ cp ≠ 0 := by
    intro cp hcp
    refine ⟨hlt cp hcp, ?_⟩
    rintro rfl
    exact h0 ((mem_flatMap_utf8_ascii hlt (by decide)).mpr hcp)
  rw [nameToWide_utf8 hne] at hw
  split_ifs at hw
  cases hw
  exact ⟨cps, rfl, rfl, spelled_of_clean hcps hsplit, hlt⟩

/-- The wide name reads back as the name it was made from, is not a dot entry of another
name, and holds no separator and no NUL. -/
structure Faithful (n : Bytes) (w : List UInt16) : Prop where
  readsBack : nameFromWide w 256 = some n
  dotOnly : w = [0x2e] → n = dot
  dotdotOnly : w = [0x2e, 0x2e] → n = dotdot
  slash_not_mem : 0x2f ∉ w
  backslash_not_mem : 0x5c ∉ w
  nul_not_mem : 0 ∉ w

theorem faithful_of_clean {n : Bytes} {w : List UInt16} (hlen : n.length ≤ 255)
    (hslash : slash ∉ n) (h0 : 0 ∉ n) (hn : CleanName n) (hw : nameToWide n 255 = some w) :
    Faithful n w := by
  obtain ⟨cps, hcps, hwide, hspell, hlt⟩ := nameToWide_clean hn h0 hw
  have hesc : ∀ cp ∈ cps.map escape, cp < 0x110000 := by
    intro cp hcp
    obtain ⟨c, hc, rfl⟩ := List.mem_map.mp hcp
    exact escape_lt (hlt c hc)
  have hunit : ∀ u : UInt16, isHigh u.toNat = false → isLow u.toNat = false → u ∈ w →
      ∃ cp ∈ cps, escape cp = u.toNat := by
    intro u hh hl hu
    rw [hwide, mem_flatMap_utf16 hesc hh hl] at hu
    exact List.mem_map.mp hu
  have hback : nameFromWide w 256 = some n := by
    rw [nameFromWide_eq w (by decide), hspell, if_pos (by omega)]
  refine ⟨hback, ?_, ?_, ?_, ?_, ?_⟩
  · rintro rfl
    exact Option.some.inj (hback.symm.trans (by decide +kernel))
  · rintro rfl
    exact Option.some.inj (hback.symm.trans (by decide +kernel))
  · intro hu
    obtain ⟨cp, hcp, he⟩ := hunit 0x2f (by decide) (by decide) hu
    have hcp' : cp = 0x2f := by
      rw [escape] at he
      split_ifs at he with hr
      · have : (0x2f : UInt16).toNat = 0x2f := rfl
        omega
      · exact he
    apply hslash
    rw [hcps, mem_flatMap_utf8_ascii hlt (by decide)]
    change 0x2f ∈ cps
    rw [← hcp']
    exact hcp
  · intro hu
    obtain ⟨cp, hcp, he⟩ := hunit 0x5c (by decide) (by decide) hu
    have hval : (0x5c : UInt16).toNat = 0x5c := rfl
    rw [escape] at he
    split_ifs at he with hr
    · omega
    · rw [he, hval] at hr
      exact hr (by decide)
  · intro hu
    obtain ⟨cp, hcp, he⟩ := hunit 0 (by decide) (by decide) hu
    have hval : (0 : UInt16).toNat = 0 := rfl
    rw [escape] at he
    split_ifs at he with hr
    · omega
    · rw [he, hval] at hr
      exact hr (by decide)

/-- An accepted name is faithful exactly when it is clean, and clean names that the host
stores alike are the same name. -/
theorem name_faithful_iff_clean (n : Bytes) (w : List UInt16)
    (hlen : 1 ≤ n.length ∧ n.length ≤ 255) (hslash : slash ∉ n) (h0 : 0 ∉ n)
    (hw : nameToWide n 255 = some w) :
    (Faithful n w ↔ CleanName n) ∧
    (CleanName n → ∀ m, 0 ∉ m → CleanName m → nameToWide m 255 = some w → m = n) := by
  refine ⟨⟨?_, fun hn => faithful_of_clean hlen.2 hslash h0 hn hw⟩, ?_⟩
  · intro hf
    have hback := hf.readsBack
    rw [nameFromWide_eq w (by decide)] at hback
    split_ifs at hback
    cases hback
    exact cleanName_spelled w
  · intro hn m hm0 hm hmw
    obtain ⟨_, _, _, hspell, _⟩ := nameToWide_clean hn h0 hw
    obtain ⟨_, _, _, hspell', _⟩ := nameToWide_clean hm hm0 hmw
    exact hspell'.symm.trans hspell

theorem sample_name_faithful :
    nameToWide (str "a:b") 255 = some [0x61, 0xf03a, 0x62] ∧
      Faithful (str "a:b") [0x61, 0xf03a, 0x62] := by
  have hw : nameToWide (str "a:b") 255 = some [0x61, 0xf03a, 0x62] := by decide +kernel
  have hclean : CleanName (str "a:b") := by
    refine ⟨[0x61, 0x3a, 0x62], by decide, by decide, ?_⟩
    rw [NoSplit]
    decide
  have hiff := name_faithful_iff_clean (str "a:b") _ (by decide) (by decide) (by decide) hw
  exact ⟨hw, hiff.1.mpr hclean⟩

/-- A private-use character comes back as another name, and an overlong spelling of `/` is
stored as one. -/
theorem accepted_names_not_faithful :
    (nameToWide [0xef, 0x81, 0x81] 255 = some [0xf041] ∧
      nameFromWide [0xf041] 256 = some (str "A") ∧ str "A" ≠ [0xef, 0x81, 0x81]) ∧
    (nameToWide [0xc0, 0xaf] 255 = some [0x2f] ∧ slash ∉ ([0xc0, 0xaf] : Bytes)) ∧
    (nameToWide [0xc0, 0xae] 255 = nameToWide dot 255 ∧ ([0xc0, 0xae] : Bytes) ≠ dot) := by
  decide +kernel

def LegalUnit (u : UInt16) : Prop := refused u.toNat = false ∧ u ≠ 0x2f

/-- Every private-use unit of the escape's range is one that `name_to_wide` makes. -/
def EscapesOnly (w : List UInt16) : Prop :=
  ∀ u ∈ w, 0xf000 ≤ u.toNat ∧ u.toNat ≤ 0xf0ff →
    u.toNat ≠ 0xf000 ∧ refused (u.toNat - 0xf000) = true

structure Reopens (n : Bytes) (w : List UInt16) : Prop where
  ne_nil : n ≠ []
  fits : n.length ≤ 255
  slash_not_mem : slash ∉ n
  nul_not_mem : 0 ∉ n
  wide : nameToWide n 255 = some w

theorem direntName_spelled {w : List UInt16} {n : Bytes} (h : direntName w = some n) :
    n = spelled w ∧ n.length ≤ 255 := by
  rw [direntName] at h
  split_ifs at h
  rw [nameFromWide_eq w (by decide)] at h
  split_ifs at h
  cases h
  exact ⟨rfl, by omega⟩

/-- A code point of a legal name outside the surrogates is one of its units. -/
theorem unit_of_codePoint {w : List UInt16} {cp : ℕ} (h : cp ∈ codePoints w) (hlt : cp < 0xd800 ∨
    0xe000 ≤ cp ∧ cp < 0x10000) : ∃ u ∈ w, u.toNat = cp := by
  have hnat : (UInt16.ofNat cp).toNat = cp :=
    UInt16.toNat_ofNat_of_lt' (by simp [UInt16.size]; omega)
  refine ⟨UInt16.ofNat cp, ?_, hnat⟩
  rw [← flatMap_utf16_codePoints w, List.mem_flatMap]
  exact ⟨cp, h, by rw [utf16_of_lt (by omega), List.mem_singleton]⟩

theorem codePoint_of_unit {w : List UInt16} {u : UInt16} (h : u ∈ w) (hh : isHigh u.toNat = false)
    (hl : isLow u.toNat = false) : u.toNat ∈ codePoints w := by
  rw [← mem_flatMap_utf16 (codePoints_lt w) hh hl, flatMap_utf16_codePoints]
  exact h

theorem not_surrogate_of_private {u : UInt16} (h : 0xf000 ≤ u.toNat) :
    isHigh u.toNat = false ∧ isLow u.toNat = false := by
  rw [← Bool.not_eq_true, ← Bool.not_eq_true, isHigh_iff, isLow_iff]
  omega

section Listing

variable {w : List UInt16} (hlegal : ∀ u ∈ w, LegalUnit u)
include hlegal

theorem legal_codePoint {cp : ℕ} (hcp : cp ∈ codePoints w) : refused cp = false ∧ cp ≠ 0x2f := by
  by_cases hlow : cp < 0x80
  · obtain ⟨u, hu, rfl⟩ := unit_of_codePoint hcp (.inl (by omega))
    obtain ⟨hr, hs⟩ := hlegal u hu
    refine ⟨hr, ?_⟩
    intro he
    exact hs (UInt16.toNat_inj.mp he)
  · refine ⟨?_, by omega⟩
    rw [← Bool.not_eq_true]
    intro hr
    exact hlow (refused_lt hr)

/-- Escaping again what a listing unescaped gives the units back. -/
theorem escape_unescape (hesc : EscapesOnly w) {cp : ℕ} (hcp : cp ∈ codePoints w) :
    escape (unescape cp) = cp := by
  rw [unescape]
  split_ifs with hp
  · obtain ⟨u, hu, rfl⟩ := unit_of_codePoint hcp (.inr (by omega))
    rw [escape, if_pos (hesc u hu hp).2]
    omega
  · rw [escape, (legal_codePoint hlegal hcp).1]
    rfl

theorem unescape_ne {b : ℕ} (hb : b < 0x80) (hrefused : b = 0x2f ∨ b = 0)
    (hesc : EscapesOnly w) {cp : ℕ} (hcp : cp ∈ codePoints w) : unescape cp ≠ b := by
  obtain ⟨hr, hs⟩ := legal_codePoint hlegal hcp
  rw [unescape]
  split_ifs with hp
  · obtain ⟨u, hu, rfl⟩ := unit_of_codePoint hcp (.inr (by omega))
    obtain ⟨hne, href⟩ := hesc u hu hp
    rcases hrefused with rfl | rfl
    · intro he
      rw [he] at href
      revert href
      decide
    · omega
  · rcases hrefused with rfl | rfl
    · exact hs
    · rintro rfl
      revert hr
      decide

theorem reopens_of_escapes {n : Bytes} (hw : w ≠ []) (hlen : w.length ≤ 255)
    (hn : n = spelled w) (hfit : n.length ≤ 255) (hesc : EscapesOnly w) : Reopens n w := by
  have hascii : ∀ b : UInt8, b.toNat < 0x80 → (b.toNat = 0x2f ∨ b.toNat = 0) → b ∉ spelled w := by
    intro b hb hr hmem
    rw [spelled, mem_flatMap_utf8_ascii (map_unescape_lt w) hb] at hmem
    obtain ⟨cp, hcp, he⟩ := List.mem_map.mp hmem
    exact unescape_ne hlegal hb hr hesc hcp he
  have hnul : (0 : UInt8) ∉ spelled w := hascii 0 (by decide) (.inr rfl)
  have hcps : ∀ cp ∈ (codePoints w).map unescape, cp < 0x110000 ∧ cp ≠ 0 := by
    intro cp hcp
    refine ⟨map_unescape_lt w cp hcp, ?_⟩
    rintro rfl
    exact hnul ((mem_flatMap_utf8_ascii (map_unescape_lt w) (by decide)).mpr hcp)
  have hid : ((codePoints w).map unescape).map escape = codePoints w := by
    rw [List.map_map]
    conv_rhs => rw [← List.map_id (codePoints w)]
    refine List.map_congr_left fun c hc => ?_
    exact escape_unescape hlegal hesc hc
  refine ⟨?_, hfit, hn ▸ hascii slash (by decide) (.inl rfl), hn ▸ hnul, ?_⟩
  · intro hnil
    rw [hn, spelled, List.flatMap_eq_nil_iff] at hnil
    cases hcp : codePoints w with
    | nil =>
        apply hw
        rw [← flatMap_utf16_codePoints w, hcp]
        rfl
    | cons c cps =>
        rw [hcp] at hnil
        exact utf8_ne_nil _ (hnil (unescape c) (by simp))
  · rw [hn, spelled, nameToWide_utf8 hcps, hid, flatMap_utf16_codePoints, if_pos hlen]

theorem escapes_of_reopens {n : Bytes} (hn : n = spelled w) (h : Reopens n w) : EscapesOnly w := by
  have hnul := h.nul_not_mem
  have hwide := h.wide
  rw [hn] at hnul hwide
  have hcps : ∀ cp ∈ (codePoints w).map unescape, cp < 0x110000 ∧ cp ≠ 0 := by
    intro cp hcp
    refine ⟨map_unescape_lt w cp hcp, ?_⟩
    rintro rfl
    exact hnul ((mem_flatMap_utf8_ascii (map_unescape_lt w) (by decide)).mpr hcp)
  rw [spelled, nameToWide_utf8 hcps] at hwide
  split_ifs at hwide
  have hunits : ((codePoints w).map (escape ∘ unescape)).flatMap utf16 =
      (codePoints w).flatMap utf16 := by
    rw [flatMap_utf16_codePoints, ← List.map_map]
    exact Option.some.inj hwide
  have hplane : ∀ cp ∈ codePoints w, (escape ∘ unescape) cp = cp ∨
      (escape ∘ unescape) cp < 0x10000 ∧ cp < 0x10000 := by
    intro cp hcp
    rw [Function.comp_apply, unescape]
    split_ifs with hp
    · right
      rw [escape]
      split_ifs with hr
      · omega
      · omega
    · left
      rw [escape, (legal_codePoint hlegal hcp).1]
      rfl
  have hid := eq_of_flatMap_utf16_map hplane hunits
  intro u hu hp
  obtain ⟨hh, hl⟩ := not_surrogate_of_private hp.1
  have hcp := codePoint_of_unit hu hh hl
  have hun : unescape u.toNat = u.toNat - 0xf000 := by rw [unescape, if_pos hp]
  constructor
  · intro he
    have hzero := (hcps (unescape u.toNat) (List.mem_map_of_mem hcp)).2
    rw [hun] at hzero
    omega
  · have hfix := hid u.toNat hcp
    rw [Function.comp_apply, hun, escape] at hfix
    split_ifs at hfix with hr
    · exact hr
    · omega

end Listing

/-- A legal host name that a listing reports is reported under a name that opens it exactly
when its private-use units are escapes; and such names are never reported alike. -/
theorem listed_reopens_iff_escapes (w : List UInt16) (n : Bytes)
    (hlen : 1 ≤ w.length ∧ w.length ≤ 255) (hlegal : ∀ u ∈ w, LegalUnit u)
    (h : direntName w = some n) :
    (Reopens n w ↔ EscapesOnly w) ∧
    (EscapesOnly w → ∀ w', w' ≠ [] → w'.length ≤ 255 → (∀ u ∈ w', LegalUnit u) → EscapesOnly w' →
      direntName w' = some n → w' = w) := by
  obtain ⟨hn, hfit⟩ := direntName_spelled h
  have hw : w ≠ [] := List.ne_nil_of_length_pos hlen.1
  refine ⟨⟨escapes_of_reopens hlegal hn, reopens_of_escapes hlegal hw hlen.2 hn hfit⟩, ?_⟩
  intro hesc w' hw' hlen' hlegal' hesc' h'
  obtain ⟨hn', _⟩ := direntName_spelled h'
  have h₁ := (reopens_of_escapes hlegal hw hlen.2 hn hfit hesc).wide
  have h₂ := (reopens_of_escapes hlegal' hw' hlen' hn' hfit hesc').wide
  exact Option.some.inj (h₂.symm.trans h₁)

theorem sample_listed_reopens :
    direntName [0x61, 0xf03a, 0xd83d, 0xde00] = some [0x61, 0x3a, 0xf0, 0x9f, 0x98, 0x80] ∧
      Reopens [0x61, 0x3a, 0xf0, 0x9f, 0x98, 0x80] [0x61, 0xf03a, 0xd83d, 0xde00] := by
  have hname : direntName [0x61, 0xf03a, 0xd83d, 0xde00] =
      some [0x61, 0x3a, 0xf0, 0x9f, 0x98, 0x80] := by decide +kernel
  have hlegal : ∀ u ∈ ([0x61, 0xf03a, 0xd83d, 0xde00] : List UInt16), LegalUnit u := by
    intro u hu
    simp only [List.mem_cons, List.not_mem_nil, or_false] at hu
    rcases hu with rfl | rfl | rfl | rfl <;> rw [LegalUnit] <;> decide
  have hesc : EscapesOnly [0x61, 0xf03a, 0xd83d, 0xde00] := by
    intro u hu
    simp only [List.mem_cons, List.not_mem_nil, or_false] at hu
    rcases hu with rfl | rfl | rfl | rfl <;> decide
  have hiff := listed_reopens_iff_escapes _ _ (by decide) hlegal hname
  exact ⟨hname, hiff.1.mpr hesc⟩

/-- A private-use unit is listed as a plain letter, under which another name is stored; one
is listed as the separator, and one as the empty string. -/
theorem listed_names_not_reopened :
    (direntName [0xf041] = some (str "A") ∧ nameToWide (str "A") 255 = some [0x41]) ∧
    (direntName [0x41] = direntName [0xf041]) ∧
    (direntName [0xf02f] = some [slash]) ∧
    (direntName [0xf000] = some [0] ∧ cstr [0] = []) := by
  decide +kernel

end SysvNt

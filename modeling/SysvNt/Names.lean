import SysvNt.BoundedLoop
import SysvNt.CodeUnits
import SysvNt.Paths

/-!
# File names on the host

`name_to_wide` turns a name into the 16-bit units the host stores, with a private-use code
point for each character the host refuses; `name_from_wide` turns them back for a directory
listing. The first goes by lead bytes and refuses little; the second undoes every private
code point of the escape's range, whether or not the first would have made it.
-/

namespace SysvNt

open CodeUnits

def refused (cp : ℕ) : Bool :=
  cp < 0x20 || cp = 0x22 || cp = 0x2a || cp = 0x3a || cp = 0x3c || cp = 0x3e || cp = 0x3f ||
    cp = 0x7c || cp = 0x5c

def escape (cp : ℕ) : ℕ := if refused cp then 0xf000 + cp else cp

def unescape (cp : ℕ) : ℕ := if 0xf000 ≤ cp ∧ cp ≤ 0xf0ff then cp - 0xf000 else cp

def toWideStep (cap : ℕ) (x : Bytes × List UInt16) :
    (Bytes × List UInt16) ⊕ Option (List UInt16) :=
  match x.1 with
  | [] => .inr (some x.2)
  | c :: s =>
    if c = 0 then .inr (some x.2)
    else match utf8Next (c :: s) with
      | none => .inr none
      | some (cp, rest) =>
        if cap < x.2.length + (utf16 (escape cp)).length then .inr none
        else .inl (rest, x.2 ++ utf16 (escape cp))

def fromWideStep (cap : ℕ) (x : List UInt16 × Bytes) : (List UInt16 × Bytes) ⊕ Option Bytes :=
  match x.1 with
  | [] => .inr (some x.2)
  | u :: w =>
    let r := utf16Next u w
    if cap ≤ x.2.length + (utf8 (unescape r.1)).length then .inr none
    else .inl (r.2, x.2 ++ utf8 (unescape r.1))

def toWideBody (cap : ℕ) : BoundedLoop.Body (Bytes × List UInt16) (Option (List UInt16)) where
  step := toWideStep cap
  measure x := x.1.length
  decreases x x' h := by
    obtain ⟨name, out⟩ := x
    unfold toWideStep at h
    cases name with
    | nil => cases h
    | cons c s =>
        dsimp only at h
        split_ifs at h
        cases hn : utf8Next (c :: s) with
        | none => rw [hn] at h; cases h
        | some r =>
            rw [hn] at h
            dsimp only at h
            split_ifs at h
            cases h
            exact utf8Next_length hn

def fromWideBody (cap : ℕ) : BoundedLoop.Body (List UInt16 × Bytes) (Option Bytes) where
  step := fromWideStep cap
  measure x := x.1.length
  decreases x x' h := by
    obtain ⟨w, out⟩ := x
    unfold fromWideStep at h
    cases w with
    | nil => cases h
    | cons u w =>
        dsimp only at h
        split_ifs at h
        cases h
        exact Nat.lt_succ_of_le (length_utf16Next_le u w)

/-- `name_to_wide`; no answer is the return of `-1`. -/
def nameToWide (name : Bytes) (cap : ℕ) : Option (List UInt16) := (toWideBody cap).run (name, [])

def nameFromWide (w : List UInt16) (cap : ℕ) : Option Bytes := (fromWideBody cap).run (w, [])

/-- The name under which `hfs_dir_read` reports an entry, if it reports it: the dot entries
and the names that do not fit are passed over. -/
def direntName (w : List UInt16) : Option Bytes :=
  if w = [0x2e] ∨ w = [0x2e, 0x2e] then none else nameFromWide w 256

/-- The spelling of a unit list as `name_from_wide` gives it, bounds apart. -/
def spelled (w : List UInt16) : Bytes := ((codePoints w).map unescape).flatMap utf8

theorem fromWideBody_run (cap : ℕ) (x : List UInt16 × Bytes) :
    (fromWideBody cap).run x =
      if x.1 = [] ∨ (x.2 ++ spelled x.1).length < cap then some (x.2 ++ spelled x.1) else none := by
  induction x using (fromWideBody cap).step_induction with
  | _ x ih =>
      obtain ⟨w, out⟩ := x
      cases w with
      | nil =>
          have hstop : (fromWideBody cap).step ([], out) = .inr (some out) := rfl
          rw [BoundedLoop.Body.run_of_stop _ hstop, if_pos (.inl rfl)]
          simp [spelled, codePoints]
      | cons u w =>
          have hspell : spelled (u :: w) =
              utf8 (unescape (utf16Next u w).1) ++ spelled (utf16Next u w).2 := by
            rw [spelled, codePoints_cons, List.map_cons, List.flatMap_cons]
            rfl
          dsimp only
          by_cases hcap : cap ≤ out.length + (utf8 (unescape (utf16Next u w).1)).length
          · have hstop : (fromWideBody cap).step (u :: w, out) = .inr none := if_pos hcap
            rw [BoundedLoop.Body.run_of_stop _ hstop, if_neg]
            rw [hspell]
            simp only [reduceCtorEq, List.length_append, false_or]
            omega
          · have hgo : (fromWideBody cap).step (u :: w, out) =
              .inl ((utf16Next u w).2, out ++ utf8 (unescape (utf16Next u w).1)) := if_neg hcap
            rw [BoundedLoop.Body.run_of_continue _ hgo, ih _ hgo, hspell]
            dsimp only
            rw [List.append_assoc]
            by_cases hw : (utf16Next u w).2 = []
            · have hnil : spelled [] = [] := rfl
              have hfits : (out ++ utf8 (unescape (utf16Next u w).1)).length < cap := by
                rw [List.length_append]
                omega
              rw [hw, hnil, List.append_nil, if_pos (.inl rfl), if_pos (.inr hfits)]
            · simp only [hw, false_or, reduceCtorEq]

/-- `name_from_wide` gives the whole spelling, with its terminator, or nothing. -/
theorem nameFromWide_eq (w : List UInt16) {cap : ℕ} (hcap : 0 < cap) :
    nameFromWide w cap = if (spelled w).length < cap then some (spelled w) else none := by
  rw [nameFromWide, fromWideBody_run]
  by_cases hw : w = []
  · subst hw
    rw [if_pos (.inl rfl), if_pos (by simpa [spelled, codePoints] using hcap)]
    rfl
  · simp only [hw, false_or, List.nil_append]

theorem toWideBody_run (cap : ℕ) (cps : List ℕ) (hcps : ∀ cp ∈ cps, cp < 0x110000 ∧ cp ≠ 0)
    (out : List UInt16) :
    (toWideBody cap).run (cps.flatMap utf8, out) =
      if cps = [] ∨ (out ++ (cps.map escape).flatMap utf16).length ≤ cap then
        some (out ++ (cps.map escape).flatMap utf16) else none := by
  induction cps generalizing out with
  | nil =>
      have hstop : (toWideBody cap).step ([], out) = .inr (some out) := rfl
      rw [List.flatMap_nil, BoundedLoop.Body.run_of_stop _ hstop, if_pos (.inl rfl)]
      simp
  | cons cp cps ih =>
      obtain ⟨hlt, hne⟩ := hcps cp List.mem_cons_self
      have hnext := utf8Next_utf8 hlt (cps.flatMap utf8)
      have hzero : (0 : UInt8) ∉ utf8 cp := by
        rw [mem_utf8_ascii hlt (by decide)]
        exact hne
      rw [List.flatMap_cons, List.map_cons, List.flatMap_cons]
      cases hu : utf8 cp with
      | nil => exact absurd hu (utf8_ne_nil cp)
      | cons c s =>
          rw [hu] at hnext hzero
          have hc : c ≠ 0 := fun he => hzero (by rw [he]; exact List.mem_cons_self)
          rw [List.cons_append] at hnext ⊢
          have hstep : (toWideBody cap).step (c :: (s ++ cps.flatMap utf8), out) =
              if cap < out.length + (utf16 (escape cp)).length then .inr none
              else .inl (cps.flatMap utf8, out ++ utf16 (escape cp)) := by
            simp only [toWideBody, toWideStep, if_neg hc, hnext]
          by_cases hcap : cap < out.length + (utf16 (escape cp)).length
          · rw [if_pos hcap] at hstep
            rw [BoundedLoop.Body.run_of_stop _ hstep, if_neg]
            simp only [reduceCtorEq, List.length_append, false_or]
            omega
          · rw [if_neg hcap] at hstep
            rw [BoundedLoop.Body.run_of_continue _ hstep,
              ih (fun c hc => hcps c (List.mem_cons_of_mem _ hc)), List.append_assoc]
            by_cases hn : cps = []
            · subst hn
              have hfits : (out ++ utf16 (escape cp)).length ≤ cap := by
                rw [List.length_append]
                omega
              rw [List.map_nil, List.flatMap_nil, List.append_nil, if_pos (.inl rfl),
                if_pos (.inr hfits)]
            · simp only [hn, false_or, reduceCtorEq]

/-- `name_to_wide` on a text of shortest forms. -/
theorem nameToWide_utf8 {cps : List ℕ} (hcps : ∀ cp ∈ cps, cp < 0x110000 ∧ cp ≠ 0) (cap : ℕ) :
    nameToWide (cps.flatMap utf8) cap =
      if ((cps.map escape).flatMap utf16).length ≤ cap then some ((cps.map escape).flatMap utf16)
      else none := by
  rw [nameToWide, toWideBody_run cap cps hcps]
  by_cases h : cps = []
  · subst h
    simp
  · simp only [h, false_or, List.nil_append]

end SysvNt

import Mathlib.Data.List.Basic
import Mathlib.Tactic
import SysvNt.Abi
import SysvNt.BoundedLoop

/-!
# Reading into user memory

`do_read` asks a description for a chunk into the bounce buffer and then copies the chunk
out; `sys_readv` does so for one vector after another. The description has moved on by the
time the copy is made. `Source` is what the calls rely on of a kind: a read that fails leaves
it alone, and one that hands bytes over advances it by their number.
-/

namespace SysvNt

def BOUNCE : ℕ := 65536

/-- A kind of description with a read operation, and what it is for one of its states to
have given up a number of bytes. -/
structure Source (σ : Type) where
  read : σ → ℕ → Except Errno Bytes × σ
  advance : σ → ℕ → σ
  advance_zero : ∀ s, advance s 0 = s
  advance_add : ∀ s a b, advance (advance s a) b = advance s (a + b)
  read_error : ∀ s n e, (read s n).1 = .error e → (read s n).2 = s
  read_ok : ∀ s n b, n ≤ BOUNCE → (read s n).1 = .ok b →
    b.length ≤ n ∧ (read s n).2 = advance s b.length ∧ (b ≠ [] → advance s b.length ≠ s)

def copyOut (writable : UInt64 → Bool) (uaddr : UInt64) (n : ℕ) : Bool :=
  (List.range n).all fun i => writable (uaddr + UInt64.ofNat i)

/-- What a call returned, the bytes it copied out, and the description it left. -/
structure ReadOut (σ : Type) where
  ret : Except Errno ℕ
  out : Bytes
  state : σ

/-- An error that comes after some bytes is reported as those bytes. -/
def doneOr (done : ℕ) (e : Errno) : Except Errno ℕ := if 0 < done then .ok done else .error e

section

variable {σ : Type} (S : Source σ) (writable : UInt64 → Bool)

/-- One turn of the loop of `do_read`: the description and the bytes copied so far. -/
def readStep (ubuf : UInt64) (len : ℕ) (x : σ × Bytes) : (σ × Bytes) ⊕ ReadOut σ :=
  if len ≤ x.2.length then .inr ⟨.ok x.2.length, x.2, x.1⟩
  else
    let chunk := min (len - x.2.length) BOUNCE
    match S.read x.1 chunk with
    | (.error e, s) => .inr ⟨doneOr x.2.length e, x.2, s⟩
    | (.ok b, s) =>
      if b = [] then .inr ⟨.ok x.2.length, x.2, s⟩
      else if copyOut writable (ubuf + UInt64.ofNat x.2.length) b.length = false then
        .inr ⟨doneOr x.2.length .EFAULT, x.2, s⟩
      else if b.length < chunk then .inr ⟨.ok (x.2 ++ b).length, x.2 ++ b, s⟩
      else .inl (s, x.2 ++ b)

theorem readStep_decreases (ubuf : UInt64) (len : ℕ) (x x' : σ × Bytes)
    (h : readStep S writable ubuf len x = .inl x') : len - x'.2.length < len - x.2.length := by
  unfold readStep at h
  split_ifs at h with hlen
  dsimp only at h
  cases hr : S.read x.1 (min (len - x.2.length) BOUNCE) with
  | mk r s =>
      rw [hr] at h
      cases r with
      | error e => cases h
      | ok b =>
          dsimp only at h
          split_ifs at h with hb hc hs
          cases h
          have hpos := List.length_pos_of_ne_nil hb
          rw [List.length_append]
          omega

def readBody (ubuf : UInt64) (len : ℕ) : BoundedLoop.Body (σ × Bytes) (ReadOut σ) where
  step := readStep S writable ubuf len
  measure x := len - x.2.length
  decreases := readStep_decreases S writable ubuf len

def readLoop (s : σ) (ubuf : UInt64) (len : ℕ) : ReadOut σ :=
  (readBody S writable ubuf len).run (s, [])

/-- What the kind's reads alone hand over for a request, chunk after chunk: the bytes so far
and the description. -/
def handStep (len : ℕ) (x : σ × Bytes) : (σ × Bytes) ⊕ Bytes :=
  if len ≤ x.2.length then .inr x.2
  else
    let chunk := min (len - x.2.length) BOUNCE
    match S.read x.1 chunk with
    | (.error _, _) => .inr x.2
    | (.ok b, s) =>
      if b = [] then .inr x.2
      else if b.length < chunk then .inr (x.2 ++ b)
      else .inl (s, x.2 ++ b)

def handBody (len : ℕ) : BoundedLoop.Body (σ × Bytes) Bytes where
  step := handStep S len
  measure x := len - x.2.length
  decreases x x' h := by
    unfold handStep at h
    split_ifs at h with hlen
    dsimp only at h
    cases hr : S.read x.1 (min (len - x.2.length) BOUNCE) with
    | mk r s =>
        rw [hr] at h
        cases r with
        | error e => cases h
        | ok b =>
            dsimp only at h
            split_ifs at h with hb hs
            cases h
            have hpos := List.length_pos_of_ne_nil hb
            rw [List.length_append]
            omega

def handed (s : σ) (len : ℕ) : Bytes := (handBody S len).run (s, [])

def Writable (uaddr : UInt64) (i n : ℕ) : Prop :=
  ∀ k, i ≤ k → k < n → writable (uaddr + UInt64.ofNat k) = true

theorem copyOut_iff (ubuf : UInt64) (i n : ℕ) :
    copyOut writable (ubuf + UInt64.ofNat i) n = true ↔ Writable writable ubuf i (i + n) := by
  have hadd : ∀ k, ubuf + UInt64.ofNat i + UInt64.ofNat k = ubuf + UInt64.ofNat (i + k) := by
    intro k
    rw [UInt64.add_assoc, UInt64.ofNat_add]
  rw [copyOut, List.all_eq_true]
  constructor
  · intro h k hk hlt
    have hmem := h (k - i) (List.mem_range.mpr (by omega))
    rw [hadd, Nat.add_sub_cancel' hk] at hmem
    exact hmem
  · intro h k hk
    rw [List.mem_range] at hk
    rw [hadd]
    exact h (i + k) (by omega) (by omega)

/-- The call has consumed what it reports to have delivered. -/
structure Exact (s : σ) (r : ReadOut σ) : Prop where
  state_eq : r.state = S.advance s r.out.length
  reported : r.ret = .ok r.out.length ∨ (∃ e, r.ret = .error e) ∧ r.out = []

/-- `r` is what a call reports that started from `s`, of which the first `done` bytes are
gone, when the description has the bytes `hand` for it. -/
structure LoopSpec (s : σ) (ubuf : UInt64) (len done : ℕ) (hand : Bytes) (r : ReadOut σ) : Prop where
  reported : r.ret = .ok r.out.length ∨ (∃ e, r.ret = .error e) ∧ r.out = []
  exact_iff : r.state = S.advance s r.out.length ↔ Writable writable ubuf done hand.length
  out_eq : r.state = S.advance s r.out.length → r.out = hand
  out_le : r.out.length ≤ len
  out_lt : r.state ≠ S.advance s r.out.length → r.out.length < len

theorem doneOr_reported (out : Bytes) (e : Errno) :
    doneOr out.length e = .ok out.length ∨ (∃ e', doneOr out.length e = .error e') ∧ out = [] := by
  rw [doneOr]
  split_ifs with h
  · exact .inl rfl
  · exact .inr ⟨⟨e, rfl⟩, List.length_eq_zero_iff.mp (by omega)⟩

/-- What one turn of the loop can do, beside the turn of the reads alone. -/
inductive Turn (ubuf : UInt64) (len : ℕ) (t : σ) (out : Bytes) : Prop where
  | stop (ret : Except Errno ℕ) (hread : readStep S writable ubuf len (t, out) = .inr ⟨ret, out, t⟩)
      (hhand : handStep S len (t, out) = .inr out)
      (hret : ret = .ok out.length ∨ (∃ e, ret = .error e) ∧ out = [])
  | got (b : Bytes) (t' : σ) (hb : b ≠ []) (hstate : t' = S.advance t b.length)
      (hmoves : S.advance t b.length ≠ t)
      (hlen : (out ++ b).length ≤ len)
      (hread : readStep S writable ubuf len (t, out) =
        if copyOut writable (ubuf + UInt64.ofNat out.length) b.length = false then
          .inr ⟨doneOr out.length .EFAULT, out, t'⟩
        else if b.length < min (len - out.length) BOUNCE then .inr ⟨.ok (out ++ b).length, out ++ b, t'⟩
        else .inl (t', out ++ b))
      (hhand : handStep S len (t, out) =
        if b.length < min (len - out.length) BOUNCE then .inr (out ++ b) else .inl (t', out ++ b))

theorem turn (ubuf : UInt64) (len : ℕ) (t : σ) (out : Bytes) : Turn S writable ubuf len t out := by
  by_cases hlen : len ≤ out.length
  · exact .stop (.ok out.length) (if_pos hlen) (if_pos hlen) (.inl rfl)
  have hread : readStep S writable ubuf len (t, out) = _ := if_neg hlen
  have hhand : handStep S len (t, out) = _ := if_neg hlen
  dsimp only at hread hhand
  cases hr : S.read t (min (len - out.length) BOUNCE) with
  | mk r t' =>
      rw [hr] at hread hhand
      cases r with
      | error e =>
          have ht := S.read_error t (min (len - out.length) BOUNCE) e (by rw [hr])
          rw [hr] at ht
          dsimp only at ht
          rw [ht] at hread
          exact .stop _ hread hhand (doneOr_reported out e)
      | ok b =>
          obtain ⟨hbn, ht, hmoves⟩ := S.read_ok t (min (len - out.length) BOUNCE) b
            (Nat.min_le_right _ _) (by rw [hr])
          rw [hr] at ht
          dsimp only at ht hread hhand
          by_cases hb : b = []
          · rw [if_pos hb] at hread hhand
            rw [hb, List.length_nil, S.advance_zero] at ht
            rw [ht] at hread
            exact .stop _ hread hhand (.inl rfl)
          · rw [if_neg hb] at hread hhand
            refine .got b t' hb ht (hmoves hb) ?_ hread hhand
            rw [List.length_append]
            omega

/-- What has been handed over stays handed over. -/
theorem handBody_prefix (len : ℕ) (x : σ × Bytes) : x.2 <+: (handBody S len).run x := by
  induction x using (handBody S len).step_induction with
  | _ x ih =>
      obtain ⟨t, out⟩ := x
      cases turn S (fun _ => true) 0 len t out with
      | stop ret hread hhand hret =>
          rw [(handBody S len).run_of_stop hhand]
      | got b t' hb hstate hmoves hlen hread hhand =>
          split_ifs at hhand
          · rw [(handBody S len).run_of_stop hhand]
            exact List.prefix_append _ _
          · rw [(handBody S len).run_of_continue hhand]
            exact (List.prefix_append _ _).trans (ih (t', out ++ b) hhand)

theorem LoopSpec.stopped {s : σ} {ubuf : UInt64} {len done : ℕ} {out : Bytes}
    {ret : Except Errno ℕ} {t : σ} (ht : t = S.advance s out.length)
    (hret : ret = .ok out.length ∨ (∃ e, ret = .error e) ∧ out = []) (hle : out.length ≤ len)
    (hw : Writable writable ubuf done out.length) :
    LoopSpec S writable s ubuf len done out ⟨ret, out, t⟩ :=
  ⟨hret, ⟨fun _ => hw, fun _ => ht⟩, fun _ => rfl, hle, fun h => absurd ht h⟩

theorem Writable.extend {ubuf : UInt64} {i j n : ℕ} (hij : i ≤ j)
    (h : Writable writable ubuf i j) : Writable writable ubuf i n ↔ Writable writable ubuf j n := by
  constructor
  · exact fun hn k hk hlt => hn k (by omega) hlt
  · intro hn k hk hlt
    by_cases hkj : k < j
    · exact h k hk hkj
    · exact hn k (by omega) hlt

theorem readBody_run (s : σ) (ubuf : UInt64) (len : ℕ) (x : σ × Bytes) :
    x.1 = S.advance s x.2.length → x.2.length ≤ len →
      LoopSpec S writable s ubuf len x.2.length ((handBody S len).run x)
        ((readBody S writable ubuf len).run x) := by
  induction x using (readBody S writable ubuf len).step_induction with
  | _ x ih =>
      obtain ⟨t, out⟩ := x
      intro hx hle
      dsimp only at hx hle
      have hpre := handBody_prefix S len (t, out)
      cases turn S writable ubuf len t out with
      | stop ret hread hhand hret =>
          rw [(readBody S writable ubuf len).run_of_stop hread, (handBody S len).run_of_stop hhand]
          exact LoopSpec.stopped S writable hx hret hle (fun k hk hlt => absurd hlt (Nat.not_lt_of_le hk))
      | got b t' hb hstate hmoves hlen hread hhand =>
          have ht' : t' = S.advance s (out ++ b).length := by
            rw [hstate, hx, S.advance_add, List.length_append]
          have hcopy := copyOut_iff writable ubuf out.length b.length
          rw [← List.length_append] at hcopy
          have hpre : out ++ b <+: (handBody S len).run (t, out) := by
            split_ifs at hhand
            · rw [(handBody S len).run_of_stop hhand]
            · rw [(handBody S len).run_of_continue hhand]
              exact handBody_prefix S len (t', out ++ b)
          by_cases hfault : copyOut writable (ubuf + UInt64.ofNat out.length) b.length = false
          · have hne : t' ≠ S.advance s out.length := by
              rw [hstate, ← hx]
              exact hmoves
            have hpos := List.length_pos_of_ne_nil hb
            rw [if_pos hfault] at hread
            rw [(readBody S writable ubuf len).run_of_stop hread]
            refine ⟨doneOr_reported out _, ⟨fun h => absurd h hne, fun h => ?_⟩,
              fun h => absurd h hne, hle, fun _ => ?_⟩
            · rw [← Bool.not_eq_true, hcopy] at hfault
              exact absurd (fun k hk hlt => h k hk (lt_of_lt_of_le hlt hpre.length_le)) hfault
            · rw [List.length_append] at hlen
              dsimp only
              omega
          rw [if_neg hfault] at hread
          rw [Bool.not_eq_false, hcopy] at hfault
          by_cases hshort : b.length < min (len - out.length) BOUNCE
          · rw [if_pos hshort] at hread hhand
            rw [(readBody S writable ubuf len).run_of_stop hread, (handBody S len).run_of_stop hhand]
            exact LoopSpec.stopped S writable ht' (.inl rfl) hlen hfault
          · rw [if_neg hshort] at hread hhand
            rw [(readBody S writable ubuf len).run_of_continue hread,
              (handBody S len).run_of_continue hhand]
            have hspec := ih (t', out ++ b) hread ht' hlen
            refine ⟨hspec.reported, ?_, hspec.out_eq, hspec.out_le, hspec.out_lt⟩
            rw [hspec.exact_iff, Writable.extend writable (by simp) hfault]

theorem readLoop_spec (s : σ) (ubuf : UInt64) (len : ℕ) :
    LoopSpec S writable s ubuf len 0 (handed S s len) (readLoop S writable s ubuf len) :=
  readBody_run S writable s ubuf len (s, []) (S.advance_zero s).symm (Nat.zero_le _)

/-- `do_read`, by the errno of the first of its checks that fails. -/
def doRead (refused : Option Errno) (s : σ) (ubuf : UInt64) (len : ℕ) : ReadOut σ :=
  match refused with
  | some e => ⟨.error e, [], s⟩
  | none => readLoop S writable s ubuf len

def offered (refused : Option Errno) (s : σ) (len : ℕ) : Bytes :=
  match refused with
  | some _ => []
  | none => handed S s len

theorem doRead_spec (refused : Option Errno) (s : σ) (ubuf : UInt64) (len : ℕ) :
    LoopSpec S writable s ubuf len 0 (offered S refused s len)
      (doRead S writable refused s ubuf len) := by
  cases refused with
  | none => exact readLoop_spec S writable s ubuf len
  | some e =>
      exact LoopSpec.stopped S writable (S.advance_zero s).symm (.inr ⟨⟨e, rfl⟩, rfl⟩)
        (Nat.zero_le _) (fun k hk hlt => absurd hlt (Nat.not_lt_zero k))

theorem doRead_exact_iff (refused : Option Errno) (s : σ) (ubuf : UInt64) (len : ℕ) :
    Exact S s (doRead S writable refused s ubuf len) ↔
      Writable writable ubuf 0 (offered S refused s len).length := by
  have hspec := doRead_spec S writable refused s ubuf len
  rw [← hspec.exact_iff]
  exact ⟨fun h => h.state_eq, fun h => ⟨h, hspec.reported⟩⟩

structure Iovec where
  base : UInt64
  len : ℕ

/-- The reading loop of `sys_readv_writev`, with the bytes copied so far. -/
def readvLoop (refused : Option Errno) (s : σ) (out : Bytes) : List Iovec → ReadOut σ
  | [] => ⟨.ok out.length, out, s⟩
  | v :: vs =>
    if v.len = 0 then readvLoop refused s out vs
    else if 0x7fffffff < v.len then ⟨doneOr out.length .EINVAL, out, s⟩
    else
      let r := doRead S writable refused s v.base v.len
      match r.ret with
      | .error e => ⟨doneOr out.length e, out, r.state⟩
      | .ok n =>
        if n < v.len then ⟨.ok (out ++ r.out).length, out ++ r.out, r.state⟩
        else readvLoop refused r.state (out ++ r.out) vs

/-- The vectors that receive bytes, each with the number of bytes it receives, when `stock` is
what a description has for a request. -/
def landing (stock : σ → ℕ → ℕ) (s : σ) : List Iovec → List (UInt64 × ℕ)
  | [] => []
  | v :: vs =>
    if v.len = 0 then landing stock s vs
    else if 0x7fffffff < v.len then []
    else if stock s v.len < v.len then [(v.base, stock s v.len)]
    else (v.base, v.len) :: landing stock (S.advance s v.len) vs

def AllWritable (vs : List (UInt64 × ℕ)) : Prop := ∀ v ∈ vs, Writable writable v.1 0 v.2

theorem handed_length_le (s : σ) (len : ℕ) : (handed S s len).length ≤ len := by
  have hrun : ∀ x : σ × Bytes, x.2.length ≤ len → ((handBody S len).run x).length ≤ len := by
    intro x
    induction x using (handBody S len).step_induction with
    | _ x ih =>
        obtain ⟨t, out⟩ := x
        intro hx
        cases turn S (fun _ => true) 0 len t out with
        | stop ret hread hhand hret =>
            rw [(handBody S len).run_of_stop hhand]
            exact hx
        | got b t' hb hstate hmoves hlen hread hhand =>
            split_ifs at hhand
            · rw [(handBody S len).run_of_stop hhand]
              exact hlen
            · rw [(handBody S len).run_of_continue hhand]
              exact ih (t', out ++ b) hhand hlen
  exact hrun (s, []) (Nat.zero_le _)

theorem offered_length_le (refused : Option Errno) (s : σ) (len : ℕ) :
    (offered S refused s len).length ≤ len := by
  cases refused with
  | none => exact handed_length_le S s len
  | some e => exact Nat.zero_le _

/-- The vectors that receive bytes, when the first one is read. -/
theorem allWritable_landing {stock : σ → ℕ → ℕ} {s : σ} {v : Iovec} {vs : List Iovec}
    (h0 : v.len ≠ 0) (hmax : ¬ 0x7fffffff < v.len) (hle : stock s v.len ≤ v.len) :
    AllWritable writable (landing S stock s (v :: vs)) ↔
      Writable writable v.base 0 (stock s v.len) ∧
      (stock s v.len = v.len → AllWritable writable (landing S stock (S.advance s v.len) vs)) := by
  rw [landing, if_neg h0, if_neg hmax]
  split_ifs with hshort
  · constructor
    · exact fun h => ⟨h _ List.mem_cons_self, fun he => absurd he (Nat.ne_of_lt hshort)⟩
    · rintro ⟨h, _⟩ w hw
      rw [List.mem_singleton] at hw
      rw [hw]
      exact h
  · have hfull : stock s v.len = v.len := by omega
    rw [hfull]
    constructor
    · exact fun h => ⟨h _ List.mem_cons_self, fun _ w hw => h w (List.mem_cons_of_mem _ hw)⟩
    · rintro ⟨h, hvs⟩ w hw
      rcases List.mem_cons.mp hw with rfl | hw
      · exact h
      · exact hvs rfl w hw

theorem allWritable_nil : AllWritable writable [] := fun _ hv => absurd hv List.not_mem_nil

theorem readvLoop_exact_iff (refused : Option Errno) {stock : σ → ℕ → ℕ}
    (hstock : ∀ s len, (offered S refused s len).length = stock s len) (s : σ) (vs : List Iovec)
    (t : σ) (out : Bytes) (ht : t = S.advance s out.length) :
    Exact S s (readvLoop S writable refused t out vs) ↔
      AllWritable writable (landing S stock t vs) := by
  induction vs generalizing t out with
  | nil =>
      rw [readvLoop, landing]
      exact ⟨fun _ => allWritable_nil writable, fun _ => ⟨ht, .inl rfl⟩⟩
  | cons v vs ih =>
      by_cases h0 : v.len = 0
      · rw [readvLoop, landing, if_pos h0, if_pos h0]
        exact ih t out ht
      by_cases hmax : 0x7fffffff < v.len
      · rw [readvLoop, landing, if_neg h0, if_neg h0, if_pos hmax, if_pos hmax]
        exact ⟨fun _ => allWritable_nil writable, fun _ => ⟨ht, doneOr_reported out _⟩⟩
      have hle : stock t v.len ≤ v.len := by
        rw [← hstock]
        exact offered_length_le S refused t v.len
      have hspec := doRead_spec S writable refused t v.base v.len
      rw [allWritable_landing S writable h0 hmax hle, ← hstock, ← hspec.exact_iff, readvLoop,
        if_neg h0, if_neg hmax]
      generalize doRead S writable refused t v.base v.len = r at hspec
      have hadd : S.advance s (out ++ r.out).length = S.advance t r.out.length := by
        rw [ht, S.advance_add, List.length_append]
      dsimp only
      rcases hspec.reported with hret | ⟨⟨e, hret⟩, hnil⟩
      · rw [hret]
        dsimp only
        by_cases hshort : r.out.length < v.len
        · rw [if_pos hshort]
          constructor
          · intro h
            have hstate := h.state_eq.trans hadd
            exact ⟨hstate, fun he => absurd he (by rw [← hspec.out_eq hstate]; omega)⟩
          · exact fun h => ⟨h.1.trans hadd.symm, .inl rfl⟩
        · have hstate : r.state = S.advance t r.out.length := by
            by_contra hne
            exact hshort (hspec.out_lt hne)
          have hfull : r.out.length = v.len := by
            have := hspec.out_le
            omega
          rw [if_neg hshort, ih r.state (out ++ r.out) (hstate.trans hadd.symm), hstate, hfull]
          exact ⟨fun h => ⟨rfl, fun _ => h⟩,
            fun h => h.2 (by rw [← hspec.out_eq hstate]; exact hfull)⟩
      · rw [hret]
        dsimp only
        rw [hnil, List.length_nil, S.advance_zero]
        constructor
        · intro h
          have hstate : r.state = t := h.state_eq.trans ht.symm
          have hout := hspec.out_eq (by rw [hnil, List.length_nil, S.advance_zero]; exact hstate)
          refine ⟨hstate, fun he => absurd he ?_⟩
          rw [← hout, hnil]
          exact fun hz => h0 hz.symm
        · exact fun h => ⟨h.1.trans ht, doneOr_reported out e⟩

/-- A description that gives what it is asked for until it has no more hands over as much as
there is. -/
theorem handed_length (avail : σ → ℕ)
    (hok : ∀ s n b, (S.read s n).1 = .ok b → b.length = min n (avail s))
    (herr : ∀ s n e, (S.read s n).1 = .error e → avail s = 0)
    (hadv : ∀ s k, k ≤ avail s → avail (S.advance s k) = avail s - k) (s : σ) (len : ℕ) :
    (handed S s len).length = min len (avail s) := by
  have hrun : ∀ x : σ × Bytes, x.2.length ≤ len →
      ((handBody S len).run x).length = min len (x.2.length + avail x.1) := by
    intro x
    induction x using (handBody S len).step_induction with
    | _ x ih =>
        obtain ⟨t, out⟩ := x
        intro hx
        dsimp only at hx ⊢
        by_cases hlen : len ≤ out.length
        · have hstop : handStep S len (t, out) = .inr out := if_pos hlen
          rw [(handBody S len).run_of_stop hstop]
          omega
        have hhand : handStep S len (t, out) = _ := if_neg hlen
        have hchunk : 0 < min (len - out.length) BOUNCE := by
          rw [BOUNCE]
          omega
        dsimp only at hhand
        cases hr : S.read t (min (len - out.length) BOUNCE) with
        | mk r t' =>
            rw [hr] at hhand
            cases r with
            | error e =>
                have := herr t _ e (by rw [hr])
                rw [(handBody S len).run_of_stop hhand]
                omega
            | ok b =>
                have hb := hok t _ b (by rw [hr])
                obtain ⟨_, ht, _⟩ := S.read_ok t _ b (Nat.min_le_right _ _) (by rw [hr])
                rw [hr] at ht
                dsimp only at ht hhand
                split_ifs at hhand with hnil hshort
                · rw [hnil, List.length_nil] at hb
                  rw [(handBody S len).run_of_stop hhand]
                  omega
                · rw [(handBody S len).run_of_stop hhand, List.length_append]
                  omega
                · have hrest := hadv t b.length (by omega)
                  rw [(handBody S len).run_of_continue hhand, ih _ hhand
                    (by rw [List.length_append]; omega)]
                  dsimp only
                  rw [ht, hrest, List.length_append]
                  omega
  have hstart := hrun (s, []) (Nat.zero_le _)
  rw [List.length_nil, Nat.zero_add] at hstart
  exact hstart

end

end SysvNt

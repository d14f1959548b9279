import SysvNt.BoundedLoop
import SysvNt.VectorCalls

/-!
# Paths from user memory

`copy_path` copies a path in by chunks of 64 bytes and goes over to single bytes where a chunk
cannot be read whole, since the string may end before the memory does. Read one byte at a time, the
string ends at its first NUL, at the first byte that cannot be read or at the limit of a path.
-/

namespace SysvNt

open BoundedLoop FileOps Transfers

namespace UserPaths

/-- User memory as `user_copy_in` sees it: the bytes that can be read, and what a copy that fails
has put in its destination. -/
structure UserSource where
  byte : UInt64 → Option UInt8
  torn : UInt64 → ℕ → Bytes

def userCopyIn (u : UserSource) (buf : Bytes) (i : ℕ) (uaddr : UInt64) (len : ℕ) : Bool × Bytes :=
  match gather u.byte (userRange uaddr len) with
  | some b => (true, writeAt 0 buf i b)
  | none => (false, writeAt 0 buf i ((u.torn uaddr len).take len))

abbrev Outcome := Except Errno Unit × Bytes

/-- The loop over `k`: so many single bytes from `got` on. -/
def copyBytes (u : UserSource) (uaddr : UInt64) : (n got : ℕ) → (buf : Bytes) → Bytes ⊕ Outcome
  | 0, _, buf => .inl buf
  | n + 1, got, buf =>
    match userCopyIn u buf got (uaddr + UInt64.ofNat got) 1 with
    | (false, buf) => .inr (.error .EFAULT, buf)
    | (true, buf) => if buf[got]? = some 0 then .inr (.ok (), buf) else copyBytes u uaddr n (got + 1) buf

def chunkAt (got : ℕ) : ℕ := if PATH_MAX < got + 64 then PATH_MAX - got else 64

def copyPathStep (u : UserSource) (uaddr : UInt64) (x : ℕ × Bytes) : (ℕ × Bytes) ⊕ Outcome :=
  if x.1 < PATH_MAX then
    match userCopyIn u x.2 x.1 (uaddr + UInt64.ofNat x.1) (chunkAt x.1) with
    | (false, buf) =>
      match copyBytes u uaddr (chunkAt x.1) x.1 buf with
      | .inl buf => .inl (x.1 + chunkAt x.1, buf)
      | .inr out => .inr out
    | (true, buf) =>
      if 0 ∈ (buf.drop x.1).take (chunkAt x.1) then .inr (.ok (), buf)
      else .inl (x.1 + chunkAt x.1, buf)
  else .inr (.error .ENAMETOOLONG, x.2)

theorem chunkAt_pos {got : ℕ} (h : got < PATH_MAX) : 0 < chunkAt got := by
  rw [chunkAt]
  split_ifs <;> omega

theorem chunkAt_le {got : ℕ} (h : got < PATH_MAX) : got + chunkAt got ≤ PATH_MAX := by
  rw [chunkAt]
  split_ifs <;> omega

/-- A round that the loop goes on from has moved a chunk on. -/
theorem copyPathStep_continues {u : UserSource} {uaddr : UInt64} {x x' : ℕ × Bytes}
    (h : copyPathStep u uaddr x = .inl x') : x.1 < PATH_MAX ∧ x'.1 = x.1 + chunkAt x.1 := by
  rw [copyPathStep] at h
  split_ifs at h with hlt
  refine ⟨hlt, ?_⟩
  split at h
  · split at h
    · cases h
      rfl
    · cases h
  · split_ifs at h
    cases h
    rfl

def copyPathLoop (u : UserSource) (uaddr : UInt64) : Body (ℕ × Bytes) Outcome where
  step := copyPathStep u uaddr
  measure x := PATH_MAX - x.1
  decreases x x' h := by
    obtain ⟨hlt, hnext⟩ := copyPathStep_continues h
    have hpos := chunkAt_pos hlt
    omega

/-- `copy_path`: its result and what it leaves in the buffer. -/
def copyPath (u : UserSource) (uaddr : UInt64) (buf : Bytes) : Outcome := (copyPathLoop u uaddr).run (0, buf)

/-- A string of user memory read a byte at a time, within a limit. -/
def readString (byte : UInt64 → Option UInt8) : ℕ → UInt64 → Except Errno Bytes
  | 0, _ => .error .ENAMETOOLONG
  | n + 1, a =>
    match byte a with
    | none => .error .EFAULT
    | some c => if c = 0 then .ok [] else (readString byte n (a + 1)).map (c :: ·)

section Reading

variable {byte : UInt64 → Option UInt8} {a : UInt64}

theorem ofNat_succ_add (a : UInt64) (i : ℕ) : a + 1 + UInt64.ofNat i = a + UInt64.ofNat (i + 1) := by
  rw [UInt64.add_assoc, Nat.add_comm i 1, UInt64.ofNat_add]
  rfl

theorem userRange_succ (a : UInt64) (n : ℕ) : userRange a (n + 1) = a :: userRange (a + 1) n := by
  have hsplit := userRange_add a 1 n
  rw [Nat.add_comm 1 n] at hsplit
  have hone : userRange a 1 = [a] := by simp [userRange]
  rw [hsplit, hone]
  rfl

theorem map_map_append (r : Except Errno Bytes) (b c : Bytes) :
    (r.map (c ++ ·)).map (b ++ ·) = r.map ((b ++ c) ++ ·) := by
  cases r with
  | error e => rfl
  | ok t => exact congrArg Except.ok (List.append_assoc b c t).symm

/-- A stretch that can be read whole either ends the string or is all in it. -/
theorem readString_stretch {n : ℕ} {b : Bytes} (h : gather byte (userRange a n) = some b) (m : ℕ) :
    readString byte (n + m) a =
      if 0 ∈ b then .ok (cstr b) else (readString byte m (a + UInt64.ofNat n)).map (b ++ ·) := by
  induction n generalizing a b with
  | zero =>
      cases h
      have hzero : a + UInt64.ofNat 0 = a := UInt64.add_zero a
      rw [Nat.zero_add, if_neg List.not_mem_nil, hzero]
      cases readString byte m a <;> rfl
  | succ n ih =>
      rw [userRange_succ] at h
      obtain ⟨c, hc, h⟩ := Option.bind_eq_some_iff.mp h
      obtain ⟨b, hb, rfl⟩ := Option.map_eq_some_iff.mp h
      rw [Nat.succ_add, readString, hc]
      dsimp only
      by_cases hc0 : c = 0
      · rw [if_pos hc0, if_pos (by simp [hc0]), cstr, List.takeWhile_cons, if_neg (by simp [hc0])]
      · rw [if_neg hc0, ih hb, ofNat_succ_add]
        have hmem : 0 ∈ c :: b ↔ 0 ∈ b := by
          rw [List.mem_cons, or_iff_right (Ne.symm hc0)]
        by_cases hb0 : 0 ∈ b
        · have hcstr : cstr (c :: b) = c :: cstr b := by
            rw [cstr, List.takeWhile_cons, if_pos (by simp [hc0])]
            rfl
          rw [if_pos hb0, if_pos (hmem.mpr hb0), hcstr]
          rfl
        · rw [if_neg hb0, if_neg (mt hmem.mp hb0)]
          exact map_map_append _ [c] b

theorem cstr_append_zero {b : Bytes} (h : 0 ∈ b) : ∃ rest, b = cstr b ++ 0 :: rest := by
  induction b with
  | nil => cases h
  | cons c b ih =>
      by_cases hc : c = 0
      · rw [hc]
        exact ⟨b, rfl⟩
      · have hcstr : cstr (c :: b) = c :: cstr b := by
          rw [cstr, List.takeWhile_cons, if_pos (by simp [hc])]
          rfl
        obtain ⟨rest, hrest⟩ := ih ((List.mem_cons.mp h).resolve_left (Ne.symm hc))
        exact ⟨rest, by rw [hcstr, List.cons_append, ← hrest]⟩

def Plain (byte : UInt64 → Option UInt8) (a : UInt64) (n : ℕ) : Prop :=
  ∀ i < n, ∃ c, byte (a + UInt64.ofNat i) = some c ∧ c ≠ 0

inductive ReadEnds (byte : UInt64 → Option UInt8) (a : UInt64) (n : ℕ) : Except Errno Bytes → Prop
  | nul {t : Bytes} (hlt : t.length < n) (hmem : 0 ∉ t) (hplain : Plain byte a t.length)
      (htext : gather byte (userRange a t.length) = some t) (hnul : byte (a + UInt64.ofNat t.length) = some 0) :
      ReadEnds byte a n (.ok t)
  | fault {k : ℕ} (hlt : k < n) (hplain : Plain byte a k) (hnone : byte (a + UInt64.ofNat k) = none) :
      ReadEnds byte a n (.error .EFAULT)
  | tooLong (hplain : Plain byte a n) : ReadEnds byte a n (.error .ENAMETOOLONG)

theorem Plain.cons {c : UInt8} (hc : byte a = some c) (hc0 : c ≠ 0) {n : ℕ} (h : Plain byte (a + 1) n) :
    Plain byte a (n + 1) := by
  intro i hi
  cases i with
  | zero =>
      have hzero : a + UInt64.ofNat 0 = a := UInt64.add_zero a
      exact ⟨c, by rw [hzero, hc], hc0⟩
  | succ i =>
      obtain ⟨d, hd, hd0⟩ := h i (by omega)
      exact ⟨d, by rwa [← ofNat_succ_add], hd0⟩

theorem readString_ends (byte : UInt64 → Option UInt8) (n : ℕ) (a : UInt64) :
    ReadEnds byte a n (readString byte n a) := by
  induction n generalizing a with
  | zero => exact .tooLong fun i hi => absurd hi (Nat.not_lt_zero i)
  | succ n ih =>
      have hzero : a + UInt64.ofNat 0 = a := UInt64.add_zero a
      rw [readString]
      cases hc : byte a with
      | none => exact .fault (Nat.succ_pos n) (fun i hi => absurd hi (Nat.not_lt_zero i)) (by rw [hzero, hc])
      | some c =>
          dsimp only
          by_cases hc0 : c = 0
          · rw [if_pos hc0]
            exact .nul (Nat.succ_pos n) List.not_mem_nil (fun i hi => absurd hi (Nat.not_lt_zero i)) rfl
              (by rw [List.length_nil, hzero, hc, hc0])
          · rw [if_neg hc0]
            have hends := ih (a + 1)
            generalize readString byte n (a + 1) = r at hends ⊢
            cases hends with
            | @nul t hlt hmem hplain htext hnul =>
                have htext' : gather byte (userRange a (t.length + 1)) = some (c :: t) := by
                  rw [userRange_succ, gather, hc, htext]
                  rfl
                exact .nul (Nat.succ_lt_succ hlt) (by simp [hmem, Ne.symm hc0]) (hplain.cons hc hc0) htext'
                  (by rw [List.length_cons, ← ofNat_succ_add, hnul])
            | fault hlt hplain hnone =>
                exact .fault (Nat.succ_lt_succ hlt) (hplain.cons hc hc0) (by rw [← ofNat_succ_add, hnone])
            | tooLong hplain => exact .tooLong (hplain.cons hc hc0)

end Reading

section Loop

variable {u : UserSource} {uaddr : UInt64} {got n : ℕ} {buf b : Bytes}

/-- The buffer holds what has been read so far, and the string goes on from there. -/
def Copied (u : UserSource) (uaddr : UInt64) (got : ℕ) (buf : Bytes) : Prop :=
  ∃ s rest, buf = s ++ rest ∧ s.length = got ∧
    readString u.byte PATH_MAX uaddr =
      (readString u.byte (PATH_MAX - got) (uaddr + UInt64.ofNat got)).map (s ++ ·)

/-- The copy ended as the reading does, and a string that was read is in the buffer. -/
def Ended (spec : Except Errno Bytes) (out : Outcome) : Prop :=
  out.1 = spec.map (fun _ => ()) ∧ ∀ t, spec = .ok t → ∃ rest, out.2 = t ++ 0 :: rest

/-- What a copy that failed has put after the part that was read does not matter. -/
theorem Copied.torn (h : Copied u uaddr got buf) (b : Bytes) : Copied u uaddr got (writeAt 0 buf got b) := by
  obtain ⟨s, rest, rfl, rfl, hread⟩ := h
  exact ⟨s, b ++ rest.drop b.length, by rw [writeAt_split, List.append_assoc], rfl, hread⟩

theorem Copied.written (h : Copied u uaddr got buf) (b : Bytes) :
    ((writeAt 0 buf got b).drop got).take b.length = b := by
  obtain ⟨s, rest, rfl, rfl, _⟩ := h
  rw [writeAt_split, List.append_assoc, List.drop_left, List.take_left]

theorem Copied.onward (h : Copied u uaddr got buf) (hn : got + n ≤ PATH_MAX)
    (hb : gather u.byte (userRange (uaddr + UInt64.ofNat got) n) = some b) (h0 : 0 ∉ b) :
    Copied u uaddr (got + n) (writeAt 0 buf got b) := by
  obtain ⟨s, rest, rfl, rfl, hread⟩ := h
  have hlen := length_gather hb
  rw [length_userRange] at hlen
  have hstretch := readString_stretch hb (PATH_MAX - (s.length + n))
  have hsum : n + (PATH_MAX - (s.length + n)) = PATH_MAX - s.length := by omega
  have haddr : uaddr + UInt64.ofNat s.length + UInt64.ofNat n = uaddr + UInt64.ofNat (s.length + n) := by
    rw [UInt64.add_assoc, UInt64.ofNat_add]
  rw [hsum, if_neg h0, haddr] at hstretch
  refine ⟨s ++ b, rest.drop b.length, writeAt_split 0 s rest b, by rw [List.length_append, hlen], ?_⟩
  rw [hread, hstretch, map_map_append]

theorem Copied.ends (h : Copied u uaddr got buf) (hn : got + n ≤ PATH_MAX)
    (hb : gather u.byte (userRange (uaddr + UInt64.ofNat got) n) = some b) (h0 : 0 ∈ b) :
    Ended (readString u.byte PATH_MAX uaddr) (.ok (), writeAt 0 buf got b) := by
  obtain ⟨s, rest, rfl, rfl, hread⟩ := h
  have hstretch := readString_stretch hb (PATH_MAX - (s.length + n))
  have hsum : n + (PATH_MAX - (s.length + n)) = PATH_MAX - s.length := by omega
  rw [hsum, if_pos h0] at hstretch
  rw [hread, hstretch]
  refine ⟨rfl, fun t ht => ?_⟩
  cases ht
  obtain ⟨tail, htail⟩ := cstr_append_zero h0
  refine ⟨tail ++ rest.drop b.length, ?_⟩
  rw [writeAt_split]
  nth_rewrite 1 [htail]
  simp

theorem Copied.faults (h : Copied u uaddr got buf) (hgot : got < PATH_MAX)
    (hnone : u.byte (uaddr + UInt64.ofNat got) = none) (buf' : Bytes) :
    Ended (readString u.byte PATH_MAX uaddr) (.error .EFAULT, buf') := by
  obtain ⟨s, rest, rfl, rfl, hread⟩ := h
  obtain ⟨m, hm⟩ : ∃ m, PATH_MAX - s.length = m + 1 := ⟨PATH_MAX - s.length - 1, by omega⟩
  rw [hread, hm, readString, hnone]
  exact ⟨rfl, fun t ht => nomatch ht⟩

/-- The single bytes: all of them are read, or the reading ends among them. -/
theorem copyBytes_copies (h : Copied u uaddr got buf) (hn : got + n ≤ PATH_MAX) :
    match copyBytes u uaddr n got buf with
    | .inl buf' => Copied u uaddr (got + n) buf'
    | .inr out => Ended (readString u.byte PATH_MAX uaddr) out := by
  induction n generalizing got buf with
  | zero => exact h
  | succ n ih =>
      have hone : userRange (uaddr + UInt64.ofNat got) 1 = [uaddr + UInt64.ofNat got] := userRange_succ _ 0
      rw [copyBytes, userCopyIn]
      cases hc : u.byte (uaddr + UInt64.ofNat got) with
      | none =>
          have hgather : gather u.byte (userRange (uaddr + UInt64.ofNat got) 1) = none := by
            rw [hone, gather, hc]
            rfl
          rw [hgather]
          exact h.faults (by omega) hc _
      | some c =>
          have hgather : gather u.byte (userRange (uaddr + UInt64.ofNat got) 1) = some [c] := by
            rw [hone, gather, hc]
            rfl
          have hwritten : (writeAt 0 buf got [c])[got]? = some c := by
            have hhead := congrArg List.head? (h.written [c])
            rw [List.length_singleton, List.head?_take, if_neg one_ne_zero, List.head?_drop] at hhead
            exact hhead
          rw [hgather]
          dsimp only
          rw [hwritten]
          by_cases hc0 : c = 0
          · rw [if_pos (congrArg some hc0)]
            exact h.ends (n := 1) (by omega) hgather (by simp [hc0])
          · rw [if_neg (mt Option.some.inj hc0)]
            have hnext := ih (h.onward (n := 1) (by omega) hgather (by simpa using Ne.symm hc0)) (by omega)
            rwa [Nat.add_assoc, Nat.add_comm 1 n] at hnext

theorem copyPathStep_keeps {x : ℕ × Bytes} (h : Copied u uaddr x.1 x.2) :
    match copyPathStep u uaddr x with
    | .inl x' => x'.1 ≤ PATH_MAX ∧ Copied u uaddr x'.1 x'.2
    | .inr out => x.1 ≤ PATH_MAX → Ended (readString u.byte PATH_MAX uaddr) out := by
  obtain ⟨got, buf⟩ := x
  rw [copyPathStep]
  by_cases hgot : got < PATH_MAX
  · have hle := chunkAt_le hgot
    rw [if_pos hgot, userCopyIn]
    cases hb : gather u.byte (userRange (uaddr + UInt64.ofNat got) (chunkAt got)) with
    | none =>
        have hslow := copyBytes_copies (h.torn ((u.torn (uaddr + UInt64.ofNat got) (chunkAt got)).take (chunkAt got)))
          hle
        dsimp only at hslow ⊢
        cases hbytes : copyBytes u uaddr (chunkAt got) got (writeAt 0 buf got
            ((u.torn (uaddr + UInt64.ofNat got) (chunkAt got)).take (chunkAt got))) with
        | inl buf' =>
            rw [hbytes] at hslow
            exact ⟨hle, hslow⟩
        | inr out =>
            rw [hbytes] at hslow
            exact fun _ => hslow
    | some b =>
        have hlen := length_gather hb
        have hwritten := h.written b
        rw [length_userRange] at hlen
        rw [hlen] at hwritten
        dsimp only at hwritten ⊢
        rw [hwritten]
        by_cases h0 : 0 ∈ b
        · rw [if_pos h0]
          exact fun _ => h.ends hle hb h0
        · rw [if_neg h0]
          exact ⟨hle, h.onward hle hb h0⟩
  · rw [if_neg hgot]
    intro hle
    obtain ⟨s, rest, rfl, rfl, hread⟩ := h
    have hend : PATH_MAX - s.length = 0 := by omega
    rw [hread, hend]
    exact ⟨rfl, fun t ht => nomatch ht⟩

/-- The copy does what reading the string a byte at a time does. -/
theorem copyPath_ends (u : UserSource) (uaddr : UInt64) (buf : Bytes) :
    Ended (readString u.byte PATH_MAX uaddr) (copyPath u uaddr buf) := by
  refine (copyPathLoop u uaddr).run_invariant (P := fun x => x.1 ≤ PATH_MAX ∧ Copied u uaddr x.1 x.2)
    ?_ ?_ (0, buf) ⟨Nat.zero_le _, [], buf, rfl, rfl, ?_⟩
  · intro x x' hx hs
    have hkeep := copyPathStep_keeps hx.2
    change copyPathStep u uaddr x = _ at hs
    rwa [hs] at hkeep
  · intro x out hx hs
    have hkeep := copyPathStep_keeps hx.2
    change copyPathStep u uaddr x = _ at hs
    rw [hs] at hkeep
    exact hkeep hx.1
  · have hzero : uaddr + UInt64.ofNat 0 = uaddr := UInt64.add_zero uaddr
    rw [Nat.sub_zero, hzero]
    cases readString u.byte PATH_MAX uaddr <;> rfl

/-- A copy of so many bytes to a place of a buffer that has them does not leave the buffer. -/
theorem length_userCopyIn {i len : ℕ} (h : i + len ≤ buf.length) (a : UInt64) :
    (userCopyIn u buf i a len).2.length = buf.length := by
  have hwrite : ∀ b : Bytes, b.length ≤ len → (writeAt 0 buf i b).length = buf.length := by
    intro b hb
    by_cases hnil : b = []
    · rw [hnil, writeAt_nil]
    · rw [length_writeAt 0 buf i hnil]
      omega
  rw [userCopyIn]
  cases hb : gather u.byte (userRange a len) with
  | none => exact hwrite _ (by rw [List.length_take]; exact Nat.min_le_left _ _)
  | some b =>
      have hlen := length_gather hb
      rw [length_userRange] at hlen
      exact hwrite b hlen.le

theorem length_copyBytes (h : got + n ≤ buf.length) :
    (Sum.elim id Prod.snd (copyBytes u uaddr n got buf)).length = buf.length := by
  induction n generalizing got buf with
  | zero => rfl
  | succ n ih =>
      have hroom : got + 1 ≤ buf.length := by omega
      have hlen := length_userCopyIn (u := u) hroom (uaddr + UInt64.ofNat got)
      rw [copyBytes]
      cases hc : userCopyIn u buf got (uaddr + UInt64.ofNat got) 1 with
      | mk ok buf' =>
          rw [hc] at hlen
          cases ok with
          | false => exact hlen
          | true =>
              dsimp only at hlen ⊢
              split_ifs
              · exact hlen
              · rw [ih (by omega), hlen]

theorem length_copyPath (u : UserSource) (uaddr : UInt64) (h : buf.length = PATH_MAX) :
    (copyPath u uaddr buf).2.length = PATH_MAX := by
  have hstep : ∀ x : ℕ × Bytes, x.2.length = PATH_MAX →
      (Sum.elim Prod.snd Prod.snd (copyPathStep u uaddr x)).length = PATH_MAX := by
    intro x hx
    rw [copyPathStep]
    by_cases hgot : x.1 < PATH_MAX
    · have hle := chunkAt_le hgot
      have hroom : x.1 + chunkAt x.1 ≤ x.2.length := by omega
      have hcopy := length_userCopyIn (u := u) hroom (uaddr + UInt64.ofNat x.1)
      rw [if_pos hgot]
      cases hc : userCopyIn u x.2 x.1 (uaddr + UInt64.ofNat x.1) (chunkAt x.1) with
      | mk ok buf' =>
          rw [hc, hx] at hcopy
          cases ok with
          | false =>
              have hroom' : x.1 + chunkAt x.1 ≤ buf'.length := by
                dsimp only at hcopy
                omega
              have hslow := @length_copyBytes u uaddr _ _ _ hroom'
              rw [hcopy] at hslow
              dsimp only
              cases hbytes : copyBytes u uaddr (chunkAt x.1) x.1 buf' <;> rwa [hbytes] at hslow
          | true =>
              dsimp only
              split_ifs <;> exact hcopy
    · rw [if_neg hgot]
      exact hx
  refine (copyPathLoop u uaddr).run_invariant (P := fun x => x.2.length = PATH_MAX)
    (Q := fun out => out.2.length = PATH_MAX) ?_ ?_ (0, buf) h
  · intro x x' hx hs
    have hlen := hstep x hx
    change copyPathStep u uaddr x = _ at hs
    rwa [hs] at hlen
  · intro x out hx hs
    have hlen := hstep x hx
    change copyPathStep u uaddr x = _ at hs
    rwa [hs] at hlen

end Loop

/-- The bytes of user memory from an address on decide how a copy of the path there ends, and a path
that was copied is in the buffer with its terminator. -/
structure CopiesPath (u : UserSource) (uaddr : UInt64) (buf : Bytes) (out : Outcome) : Prop where
  returns : out.1 = .ok () ↔ ∃ n < PATH_MAX, u.byte (uaddr + UInt64.ofNat n) = some 0 ∧
    ∀ i ≤ n, u.byte (uaddr + UInt64.ofNat i) ≠ none
  faults : out.1 = .error .EFAULT ↔ ∃ n < PATH_MAX, u.byte (uaddr + UInt64.ofNat n) = none ∧
    ∀ i < n, u.byte (uaddr + UInt64.ofNat i) ≠ some 0
  tooLong : out.1 = .error .ENAMETOOLONG ↔ ∀ i < PATH_MAX, u.byte (uaddr + UInt64.ofNat i) ≠ none ∧
    u.byte (uaddr + UInt64.ofNat i) ≠ some 0
  string : out.1 = .ok () → ∃ t rest, out.2 = t ++ 0 :: rest ∧ t.length < PATH_MAX ∧ 0 ∉ t ∧
    gather u.byte (userRange uaddr (t.length + 1)) = some (t ++ [0])
  inside : buf.length = PATH_MAX → out.2.length = PATH_MAX

section Ends

variable {byte : UInt64 → Option UInt8} {a : UInt64} {k : ℕ}

theorem Plain.readable (h : Plain byte a k) {i : ℕ} (hi : i < k) : byte (a + UInt64.ofNat i) ≠ none := by
  obtain ⟨c, hc, _⟩ := h i hi
  rw [hc]
  exact Option.some_ne_none c

theorem Plain.not_nul (h : Plain byte a k) {i : ℕ} (hi : i < k) : byte (a + UInt64.ofNat i) ≠ some 0 := by
  obtain ⟨c, hc, hc0⟩ := h i hi
  rw [hc]
  exact mt Option.some.inj hc0

end Ends

theorem copy_path_bytewise (u : UserSource) (uaddr : UInt64) (buf : Bytes) :
    CopiesPath u uaddr buf (copyPath u uaddr buf) := by
  have hends := readString_ends u.byte PATH_MAX uaddr
  obtain ⟨hret, hleft⟩ := copyPath_ends u uaddr buf
  have hinside := @length_copyPath buf u uaddr
  generalize copyPath u uaddr buf = out at *
  generalize readString u.byte PATH_MAX uaddr = spec at *
  cases hends with
  | @nul t hlt hmem hplain htext hnul =>
      refine ⟨⟨fun _ => ⟨t.length, hlt, hnul, fun i hi => ?_⟩, fun _ => hret⟩, ?_, ?_, ?_, hinside⟩
      · rcases Nat.lt_or_eq_of_le hi with hi | rfl
        · exact hplain.readable hi
        · rw [hnul]
          exact Option.some_ne_none 0
      · rw [hret]
        refine ⟨fun h => (by cases h), fun h => ?_⟩
        obtain ⟨n, hn, hnone, hbefore⟩ := h
        rcases Nat.lt_trichotomy n t.length with hlt' | rfl | hlt'
        · exact absurd hnone (hplain.readable hlt')
        · rw [hnul] at hnone
          cases hnone
        · exact absurd hnul (hbefore _ hlt')
      · rw [hret]
        exact ⟨fun h => (by cases h), fun h => absurd hnul (h _ hlt).2⟩
      · intro _
        obtain ⟨rest, hrest⟩ := hleft t rfl
        have hlast : gather u.byte (userRange uaddr (t.length + 1)) = some (t ++ [0]) := by
          have hone : userRange (uaddr + UInt64.ofNat t.length) 1 = [uaddr + UInt64.ofNat t.length] :=
            userRange_succ _ 0
          rw [userRange_add, hone, gather_append, htext, gather, hnul]
          rfl
        exact ⟨t, rest, hrest, hlt, hmem, hlast⟩
  | @fault k hlt hplain hnone =>
      refine ⟨?_, ⟨fun _ => ⟨k, hlt, hnone, fun i hi => hplain.not_nul hi⟩, fun _ => hret⟩, ?_, ?_, hinside⟩
      · rw [hret]
        refine ⟨fun h => (by cases h), fun h => ?_⟩
        obtain ⟨n, hn, hnul, hreadable⟩ := h
        rcases Nat.lt_or_ge n k with hlt' | hle
        · exact absurd hnul (hplain.not_nul hlt')
        · exact absurd hnone (hreadable k hle)
      · rw [hret]
        exact ⟨fun h => (by cases h), fun h => absurd hnone (h k hlt).1⟩
      · intro h
        rw [hret] at h
        cases h
  | tooLong hplain =>
      refine ⟨?_, ?_, ⟨fun _ i hi => ⟨hplain.readable hi, hplain.not_nul hi⟩, fun _ => hret⟩, ?_, hinside⟩
      · rw [hret]
        refine ⟨fun h => (by cases h), fun h => ?_⟩
        obtain ⟨n, hn, hnul, _⟩ := h
        exact absurd hnul (hplain.not_nul hn)
      · rw [hret]
        refine ⟨fun h => (by cases h), fun h => ?_⟩
        obtain ⟨n, hn, hnone, _⟩ := h
        exact absurd hnone (hplain.readable hn)
      · intro h
        rw [hret] at h
        cases h

end UserPaths

end SysvNt

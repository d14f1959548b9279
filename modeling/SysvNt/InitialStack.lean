import SysvNt.DirectoryRecords
import SysvNt.ElfMemory
import SysvNt.ExecEnter

/-!
# The initial stack

`exec_enter` fills a buffer from its top down: the strings, the random bytes, and below them the vector,
a word after the other. What it copies out is read back the way `_start` does: `argc`, so many pointers
and their null, the environment up to its null, and the auxiliary pairs up to `AT_NULL`.
-/

namespace SysvNt

open FallibleCalls

variable {σ : Type}

section Buffer

/-- The host's copy of the stack, how far it is filled, and the strings' user addresses. -/
structure StackBuffer where
  bytes : Bytes
  sp : ℕ
  argv : List (BitVec 64)

def pushString (ub : BitVec 64) (b : StackBuffer) (s : Bytes) : StackBuffer where
  bytes := overlay (b.sp - (s.length + 1)) (s ++ [0]) b.bytes
  sp := b.sp - (s.length + 1)
  argv := b.argv ++ [ub + BitVec.ofNat 64 (b.sp - (s.length + 1))]

def put (b : Bytes × ℕ) (w : BitVec 64) : Bytes × ℕ := (overlay b.2 (leBytes 8 w.toNat) b.1, b.2 + 8)

/-- `sp &= ~15`, and a pad word where the count is odd. -/
def alignVector (sp words : ℕ) : ℕ := sp / 16 * 16 - (if words % 2 = 1 then 8 else 0) - 8 * words

/-- The buffer of `exec_enter`, filled, and the place of `argc` in it. -/
def buildStack (strings : List Bytes) (li : LoadInfo) (gate ub vdso : BitVec 64) : Bytes × ℕ :=
  let b := strings.foldl (pushString ub) ⟨List.replicate STK_SIZE 0, STK_SIZE, []⟩
  let rnd := b.sp - 16
  let sp := alignVector rnd (vectorWords strings.length)
  let vector := BitVec.ofNat 64 strings.length :: b.argv ++
    [0, 0, 3, li.phdrVa, 4, li.phent, 5, li.phnum, 6, 4096, 9, li.entry, 25, ub + BitVec.ofNat 64 rnd,
      32, gate, 33, vdso, 0, 0]
  ((vector.foldl put (overlay rnd auxRandom b.bytes, sp)).1, sp)

theorem overlay_replicate (off k : ℕ) (pre bs rest : Bytes) (hoff : pre.length = off) :
    overlay off bs (pre ++ List.replicate (bs.length + k) 0 ++ rest) =
      pre ++ bs ++ List.replicate k 0 ++ rest := by
  rw [overlay, List.replicate_add]
  simp only [List.append_assoc]
  rw [List.take_left' hoff, ← List.drop_drop, List.drop_left' hoff, List.drop_left' List.length_replicate]

theorem length_leBytes (n v : ℕ) : (leBytes n v).length = n := by
  induction n generalizing v with
  | zero => rfl
  | succ n ih => rw [leBytes, List.length_cons, ih]

theorem length_words (ws : List (BitVec 64)) : (ws.flatMap fun w => leBytes 8 w.toNat).length = 8 * ws.length := by
  induction ws with
  | nil => rfl
  | cons w ws ih =>
      rw [List.flatMap_cons, List.length_append, length_leBytes, ih, List.length_cons]
      omega

/-- The strings are laid below one another, each above those that come later. -/
theorem pushStrings_eq (ub : BitVec 64) (strings : List Bytes) (sp : ℕ) (rest : Bytes) (ptrs : List (BitVec 64))
    (hfit : (strings.map fun s => s.length + 1).sum ≤ sp) :
    strings.foldl (pushString ub) ⟨List.replicate sp 0 ++ rest, sp, ptrs⟩ =
      ⟨List.replicate (sp - (strings.map fun s => s.length + 1).sum) 0 ++
          (strings.reverse.flatMap fun s => s ++ [0]) ++ rest,
        sp - (strings.map fun s => s.length + 1).sum,
        ptrs ++ (Argv.stringAt sp strings).map fun k => ub + BitVec.ofNat 64 k⟩ := by
  induction strings generalizing sp rest ptrs with
  | nil => simp [Argv.stringAt]
  | cons s strings ih =>
      rw [List.map_cons, List.sum_cons] at hfit
      have hlen : (s ++ [0]).length = s.length + 1 := by simp
      have hsplit : List.replicate sp (0 : UInt8) ++ rest =
          List.replicate (sp - (s.length + 1)) 0 ++ List.replicate ((s ++ [0]).length + 0) 0 ++ rest := by
        rw [← List.replicate_add, hlen]
        congr 2
        omega
      have hpush : pushString ub ⟨List.replicate sp 0 ++ rest, sp, ptrs⟩ s =
          ⟨List.replicate (sp - (s.length + 1)) 0 ++ ((s ++ [0]) ++ rest), sp - (s.length + 1),
            ptrs ++ [ub + BitVec.ofNat 64 (sp - (s.length + 1))]⟩ := by
        rw [pushString]
        dsimp only
        rw [hsplit, overlay_replicate _ 0 _ (s ++ [0]) rest List.length_replicate, List.replicate_zero,
          List.append_nil, List.append_assoc]
      rw [List.foldl_cons, hpush, ih _ _ _ (by omega), List.map_cons, List.sum_cons, Argv.stringAt,
        List.map_cons, List.reverse_cons, List.flatMap_append, Nat.sub_sub]
      simp

theorem foldl_put (ws : List (BitVec 64)) (pre rest : Bytes) (k : ℕ) :
    ws.foldl put (pre ++ List.replicate (8 * ws.length + k) 0 ++ rest, pre.length) =
      (pre ++ (ws.flatMap fun w => leBytes 8 w.toNat) ++ List.replicate k 0 ++ rest,
        pre.length + 8 * ws.length) := by
  induction ws generalizing pre with
  | nil => simp
  | cons w ws ih =>
      have hlen : (leBytes 8 w.toNat).length = 8 := length_leBytes 8 _
      have hcount : 8 * (w :: ws).length + k = (leBytes 8 w.toNat).length + (8 * ws.length + k) := by
        rw [hlen, List.length_cons]
        omega
      have hput : put (pre ++ List.replicate (8 * (w :: ws).length + k) 0 ++ rest, pre.length) w =
          ((pre ++ leBytes 8 w.toNat) ++ List.replicate (8 * ws.length + k) 0 ++ rest,
            (pre ++ leBytes 8 w.toNat).length) := by
        rw [put, hcount]
        dsimp only
        rw [overlay_replicate _ _ pre _ rest rfl, List.length_append, hlen]
      rw [List.foldl_cons, hput, ih, List.flatMap_cons, List.length_append, hlen, List.length_cons]
      simp only [List.append_assoc, Prod.mk.injEq, true_and]
      omega

theorem length_stringAt (sp : ℕ) (strings : List Bytes) :
    (Argv.stringAt sp strings).length = strings.length := by
  induction strings generalizing sp with
  | nil => rfl
  | cons s strings ih => rw [Argv.stringAt, List.length_cons, ih, List.length_cons]

variable (args : Argv) (li : LoadInfo) (gate ub vdso : BitVec 64)

theorem length_initialVector : (initialVector args li gate ub vdso).length = vectorWords args.argc := by
  rw [initialVector, List.length_append, List.length_cons, List.length_map, length_stringAt, vectorWords,
    Argv.argc]
  simp only [List.length_cons, List.length_nil]
  omega

/-- The places in the stack: the vector's base is aligned, and the vector ends below the random bytes. -/
theorem Argv.vectorBase_spec : args.vectorBase % 16 = 0 ∧
    args.vectorBase + 8 * vectorWords args.argc ≤ args.randomBase ∧ args.randomBase + 16 = args.stringBase ∧
    args.stringBase + (args.strings.map fun s => s.length + 1).sum = STK_SIZE := by
  have hstrings := args.strings_fit
  have hvector := args.vector_fits
  rw [Argv.vectorBase, Argv.randomBase, Argv.stringBase, Argv.argc]
  generalize vectorWords args.strings.length = words at *
  generalize (args.strings.map fun s => s.length + 1).sum = total at *
  split_ifs at * <;> omega

/-- The buffer holds zeros below the vector, and above them what is copied out. -/
theorem buildStack_eq : buildStack args.strings li gate ub vdso =
    (List.replicate args.vectorBase 0 ++ initialStack args li gate ub vdso, args.vectorBase) := by
  obtain ⟨-, hvector, hrandom, hstrings⟩ := args.vectorBase_spec
  have hpush := pushStrings_eq ub args.strings STK_SIZE [] [] (by omega)
  rw [List.append_nil, List.append_nil] at hpush
  have hbase : STK_SIZE - (args.strings.map fun s => s.length + 1).sum = args.stringBase := rfl
  have halign : alignVector (args.stringBase - 16) (vectorWords args.strings.length) = args.vectorBase := rfl
  have hzeros : List.replicate args.stringBase (0 : UInt8) =
      List.replicate (args.stringBase - 16) 0 ++ List.replicate (auxRandom.length + 0) 0 := by
    have hsum : args.stringBase = args.stringBase - 16 + (auxRandom.length + 0) := by
      have hlen : auxRandom.length = 16 := rfl
      omega
    rw [← List.replicate_add]
    exact congrArg (fun n => List.replicate n (0 : UInt8)) hsum
  have hrnd : overlay (args.stringBase - 16) auxRandom
      (List.replicate args.stringBase 0 ++ (args.strings.reverse.flatMap fun s => s ++ [0])) =
      List.replicate (args.stringBase - 16) 0 ++ (auxRandom ++ args.strings.reverse.flatMap fun s => s ++ [0]) := by
    rw [hzeros, overlay_replicate _ 0 _ auxRandom _ List.length_replicate, List.replicate_zero, List.append_nil,
      List.append_assoc]
  have hlow : List.replicate (args.stringBase - 16) (0 : UInt8) = List.replicate args.vectorBase 0 ++
      List.replicate (8 * vectorWords args.argc +
        (args.randomBase - args.vectorBase - 8 * vectorWords args.argc)) 0 := by
    have hsum : args.stringBase - 16 = args.vectorBase + (8 * vectorWords args.argc +
        (args.randomBase - args.vectorBase - 8 * vectorWords args.argc)) := by omega
    rw [← List.replicate_add]
    exact congrArg (fun n => List.replicate n (0 : UInt8)) hsum
  have hput := foldl_put (initialVector args li gate ub vdso) (List.replicate args.vectorBase 0)
    (auxRandom ++ args.strings.reverse.flatMap fun s => s ++ [0])
    (args.randomBase - args.vectorBase - 8 * vectorWords args.argc)
  rw [length_initialVector, List.length_replicate] at hput
  rw [buildStack, hpush]
  dsimp only
  rw [hbase, halign, List.nil_append, hrnd, hlow]
  have hvec : BitVec.ofNat 64 args.strings.length ::
      (Argv.stringAt STK_SIZE args.strings).map (fun k => ub + BitVec.ofNat 64 k) ++
        [0, 0, 3, li.phdrVa, 4, li.phent, 5, li.phnum, 6, 4096, 9, li.entry, 25,
          ub + BitVec.ofNat 64 (args.stringBase - 16), 32, gate, 33, vdso, 0, 0] =
      initialVector args li gate ub vdso := rfl
  rw [hvec, hput, initialStack]
  simp only [List.append_assoc]

/-- What `exec_enter` copies out is the buffer that its loops have filled, from the place of `argc` on. -/
theorem execEnter_builds (S : Substrate σ) (tid : ℤ) (allocated : Bool) : execEnter S li gate args tid allocated = (do
    let ub ← mapRange S 0 (BitVec.ofNat 64 STK_SIZE) .stack (SUB_PROT_READ ||| SUB_PROT_WRITE)
    let _ ← recordRange ub (BitVec.ofNat 64 STK_SIZE) (SUB_PROT_READ ||| SUB_PROT_WRITE) .stack 0 (str "[stack]")
    let vdso ← vdsoMap S
    if allocated then do
      let b := buildStack args.strings li gate ub vdso
      note [.copyOut (ub + BitVec.ofNat 64 b.2) (STK_SIZE - b.2)]
      onSub (S.userCopyOut (ub + BitVec.ofNat 64 b.2) (b.1.drop b.2))
      onSub (S.threadStart tid li.entry (ub + BitVec.ofNat 64 b.2) 0)
    else throw ()) := by
  have hdrop (ub vdso : BitVec 64) : (List.replicate args.vectorBase 0 ++ initialStack args li gate ub vdso).drop
      args.vectorBase = initialStack args li gate ub vdso := List.drop_left' List.length_replicate
  simp only [execEnter, buildStack_eq, hdrop]

end Buffer

section Reading

abbrev UserBytes := BitVec 64 → UInt8

def readBytes (mem : UserBytes) (a : BitVec 64) (n : ℕ) : Bytes :=
  (List.range n).map fun k => mem (a + BitVec.ofNat 64 k)

def readWord (mem : UserBytes) (a : BitVec 64) : BitVec 64 := BitVec.ofNat 64 (fromLittleEndian (readBytes mem a 8))

/-- A string up to its null, of less than so many bytes. -/
def readString (mem : UserBytes) : ℕ → BitVec 64 → Option Bytes
  | 0, _ => none
  | n + 1, a => if mem a = 0 then some [] else (readString mem n (a + 1)).map fun s => mem a :: s

def readPointers (mem : UserBytes) : ℕ → BitVec 64 → Option (List (BitVec 64))
  | 0, _ => none
  | n + 1, a =>
    if readWord mem a = 0 then some [] else (readPointers mem n (a + 8)).map fun ps => readWord mem a :: ps

def readAuxv (mem : UserBytes) : ℕ → BitVec 64 → Option (List (BitVec 64 × BitVec 64))
  | 0, _ => none
  | n + 1, a =>
    if readWord mem a = 0 then some []
    else (readAuxv mem n (a + 16)).map fun es => (readWord mem a, readWord mem (a + 8)) :: es

structure ProcessStart where
  argv : List (BitVec 64)
  envp : List (BitVec 64)
  auxv : List (BitVec 64 × BitVec 64)

/-- The process's start as the psABI lays it out from the stack pointer up. -/
def readStart (mem : UserBytes) (fuel : ℕ) (rsp : BitVec 64) : Option ProcessStart := do
  let argc := (readWord mem rsp).toNat
  let argv := (List.range argc).map fun i => readWord mem (rsp + BitVec.ofNat 64 (8 * (i + 1)))
  if readWord mem (rsp + BitVec.ofNat 64 (8 * (argc + 1))) = 0 then do
    let envp ← readPointers mem fuel (rsp + BitVec.ofNat 64 (8 * (argc + 2)))
    let auxv ← readAuxv mem fuel (rsp + BitVec.ofNat 64 (8 * (argc + 2 + envp.length + 1)))
    some ⟨argv, envp, auxv⟩
  else none

/-- The bytes of the vector: `argc`, the two lists and the pairs, with what ends each. -/
def ProcessStart.size (p : ProcessStart) : ℕ := 8 * (1 + (p.argv.length + 1) + (p.envp.length + 1) + 2 * (p.auxv.length + 1))

def HoldsBytes (mem : UserBytes) (a : BitVec 64) (bs : Bytes) : Prop :=
  ∀ k c, bs[k]? = some c → mem (a + BitVec.ofNat 64 k) = c

variable {mem : UserBytes} {a : BitVec 64} {bs cs : Bytes}

theorem HoldsBytes.left (h : HoldsBytes mem a (bs ++ cs)) : HoldsBytes mem a bs := by
  intro k c hk
  apply h
  rw [List.getElem?_append_left (List.getElem?_eq_some_iff.mp hk).1]
  exact hk

theorem HoldsBytes.right (h : HoldsBytes mem a (bs ++ cs)) : HoldsBytes mem (a + BitVec.ofNat 64 bs.length) cs := by
  intro k c hk
  have hsum : a + BitVec.ofNat 64 bs.length + BitVec.ofNat 64 k = a + BitVec.ofNat 64 (bs.length + k) := by
    rw [BitVec.ofNat_add, BitVec.add_assoc]
  rw [hsum]
  apply h
  rw [List.getElem?_append_right (Nat.le_add_right _ _), Nat.add_sub_cancel_left]
  exact hk

theorem HoldsBytes.readBytes (h : HoldsBytes mem a bs) : readBytes mem a bs.length = bs := by
  apply List.ext_getElem?
  intro k
  rw [SysvNt.readBytes, List.getElem?_map]
  by_cases hk : k < bs.length
  · rw [List.getElem?_range hk, Option.map_some, List.getElem?_eq_getElem hk]
    exact congrArg some (h k _ (List.getElem?_eq_getElem hk))
  · rw [List.getElem?_eq_none (by simpa using hk), List.getElem?_eq_none (by simpa using hk), Option.map_none]

theorem leBytes_eq_littleEndian (n v : ℕ) : leBytes n v = littleEndian n v := by
  induction n generalizing v with
  | zero => rfl
  | succ n ih => rw [leBytes, littleEndian, ih]

theorem HoldsBytes.readWord {w : BitVec 64} (h : HoldsBytes mem a (leBytes 8 w.toNat)) : readWord mem a = w := by
  have hbytes := h.readBytes
  rw [length_leBytes] at hbytes
  rw [SysvNt.readWord, hbytes, leBytes_eq_littleEndian, fromLittleEndian_littleEndian]
  apply BitVec.eq_of_toNat_eq
  rw [BitVec.toNat_ofNat]
  have hlt := w.isLt
  omega

def HoldsWords (mem : UserBytes) (a : BitVec 64) (ws : List (BitVec 64)) : Prop :=
  ∀ i w, ws[i]? = some w → SysvNt.readWord mem (a + BitVec.ofNat 64 (8 * i)) = w

theorem HoldsBytes.words {ws : List (BitVec 64)} (h : HoldsBytes mem a (ws.flatMap fun w => leBytes 8 w.toNat)) :
    HoldsWords mem a ws := by
  induction ws generalizing a with
  | nil => exact fun i w hi => nomatch hi
  | cons v ws ih =>
      rw [List.flatMap_cons] at h
      have hright := h.right
      rw [length_leBytes] at hright
      intro i w hi
      cases i with
      | zero =>
          cases hi
          have hzero : a + BitVec.ofNat 64 (8 * 0) = a := BitVec.add_zero a
          rw [hzero]
          exact h.left.readWord
      | succ i =>
          have hnext := ih hright i w hi
          have hsum : a + BitVec.ofNat 64 8 + BitVec.ofNat 64 (8 * i) = a + BitVec.ofNat 64 (8 * (i + 1)) := by
            rw [BitVec.add_assoc, ← BitVec.ofNat_add, Nat.mul_succ, Nat.add_comm]
          rw [hsum] at hnext
          exact hnext

theorem HoldsWords.append {vs ws : List (BitVec 64)} (h : HoldsWords mem a (vs ++ ws)) :
    HoldsWords mem a vs ∧ HoldsWords mem (a + BitVec.ofNat 64 (8 * vs.length)) ws := by
  refine ⟨fun i w hi => ?_, fun i w hi => ?_⟩
  · apply h
    rw [List.getElem?_append_left (List.getElem?_eq_some_iff.mp hi).1]
    exact hi
  · have hsum : a + BitVec.ofNat 64 (8 * vs.length) + BitVec.ofNat 64 (8 * i) =
        a + BitVec.ofNat 64 (8 * (vs.length + i)) := by
      rw [BitVec.add_assoc, ← BitVec.ofNat_add, Nat.mul_add]
    rw [hsum]
    apply h
    rw [List.getElem?_append_right (Nat.le_add_right _ _), Nat.add_sub_cancel_left]
    exact hi

theorem HoldsWords.head {w : BitVec 64} {ws : List (BitVec 64)} (h : HoldsWords mem a (w :: ws)) :
    SysvNt.readWord mem a = w := by
  have hzero : a + BitVec.ofNat 64 (8 * 0) = a := BitVec.add_zero a
  rw [← hzero]
  exact h 0 w rfl

theorem HoldsWords.tail {w : BitVec 64} {ws : List (BitVec 64)} (h : HoldsWords mem a (w :: ws)) :
    HoldsWords mem (a + 8) ws := by
  have happend : HoldsWords mem a ([w] ++ ws) := h
  exact happend.append.2

/-- A string in memory with its null is read back. -/
theorem HoldsBytes.readString {s : Bytes} (h : HoldsBytes mem a (s ++ [0])) (hs : 0 ∉ s) {fuel : ℕ}
    (hfuel : s.length < fuel) : readString mem fuel a = some s := by
  induction s generalizing a fuel with
  | nil =>
      have hzero : mem (a + BitVec.ofNat 64 0) = 0 := h 0 0 rfl
      have ha : a + BitVec.ofNat 64 0 = a := BitVec.add_zero a
      rw [ha] at hzero
      cases fuel with
      | zero => exact absurd hfuel (Nat.not_lt_zero _)
      | succ n => exact if_pos hzero
  | cons c s ih =>
      cases fuel with
      | zero => exact absurd hfuel (Nat.not_lt_zero _)
      | succ n =>
          have hhead : mem (a + BitVec.ofNat 64 0) = c := h 0 c rfl
          have ha : a + BitVec.ofNat 64 0 = a := BitVec.add_zero a
          rw [ha] at hhead
          have hc : c ≠ 0 := fun hc => hs (hc ▸ List.mem_cons_self)
          have htail : HoldsBytes mem (a + 1) (s ++ [0]) := by
            have hright : HoldsBytes mem a ([c] ++ (s ++ [0])) := h
            exact hright.right
          have hrest := ih htail (fun hmem => hs (List.mem_cons_of_mem c hmem)) (Nat.lt_of_succ_lt_succ hfuel)
          rw [SysvNt.readString, hhead, if_neg hc, hrest, Option.map_some]

/-- Auxiliary pairs in memory, ended by a pair of type `AT_NULL`, are read back. -/
theorem HoldsWords.readAuxv {es : List (BitVec 64 × BitVec 64)} {ws : List (BitVec 64)}
    (h : HoldsWords mem a (es.flatMap (fun e => [e.1, e.2]) ++ 0 :: ws)) (hes : ∀ e ∈ es, e.1 ≠ 0) {fuel : ℕ}
    (hfuel : es.length < fuel) : readAuxv mem fuel a = some es := by
  induction es generalizing a fuel with
  | nil =>
      cases fuel with
      | zero => exact absurd hfuel (Nat.not_lt_zero _)
      | succ n => exact if_pos h.head
  | cons e es ih =>
      cases fuel with
      | zero => exact absurd hfuel (Nat.not_lt_zero _)
      | succ n =>
          have htail := h.tail.tail
          have hsum : a + 8 + 8 = a + 16 := by
            rw [BitVec.add_assoc]
            rfl
          rw [hsum] at htail
          have hrest := ih htail (fun d hd => hes d (List.mem_cons_of_mem e hd)) (Nat.lt_of_succ_lt_succ hfuel)
          rw [SysvNt.readAuxv, h.head, h.tail.head, if_neg (hes e List.mem_cons_self), hrest, Option.map_some]

end Reading

section Start

variable {S : Substrate σ} {V : UserView σ} {args : Argv} {li : LoadInfo} {gate ub rsp vdso : BitVec 64}
  {mem : UserBytes}

def auxiliary (li : LoadInfo) (gate rnd vdso : BitVec 64) : List (BitVec 64 × BitVec 64) :=
  [(3, li.phdrVa), (4, li.phent), (5, li.phnum), (6, 4096), (9, li.entry), (25, rnd), (32, gate), (33, vdso)]

def InStack (ub : BitVec 64) (p : BitVec 64 × ℕ) : Prop :=
  ub.toNat ≤ p.1.toNat ∧ p.1.toNat + p.2 ≤ ub.toNat + STK_SIZE

def ApartFrom (p q : BitVec 64 × ℕ) : Prop := p.1.toNat + p.2 ≤ q.1.toNat ∨ q.1.toNat + q.2 ≤ p.1.toNat

/-- The process's start is read back with the arguments in order and the pairs given, and its parts lie
apart in the stack. -/
structure Recovered (mem : UserBytes) (ub rsp : BitVec 64) (args : Argv) (li : LoadInfo) (gate vdso : BitVec 64)
    (start : ProcessStart) (rnd : BitVec 64) : Prop where
  read : readStart mem STK_SIZE rsp = some start
  aligned : rsp.toNat % 16 = 0
  argv : start.argv.map (readString mem STK_SIZE) = args.strings.map some
  envp : start.envp = []
  auxv : start.auxv = auxiliary li gate rnd vdso
  random : readBytes mem rnd 16 = auxRandom
  inStack : ∀ p ∈ (rsp, start.size) :: (rnd, 16) :: start.argv.zip (args.strings.map fun s => s.length + 1), InStack ub p
  apart : ((rsp, start.size) :: (rnd, 16) ::
    start.argv.zip (args.strings.map fun s => s.length + 1)).Pairwise ApartFrom

/-- The strings are found at their places. -/
theorem holds_strings (strings : List Bytes) (sp : ℕ) (hfit : (strings.map fun s => s.length + 1).sum ≤ sp)
    (h : HoldsBytes mem (ub + BitVec.ofNat 64 (sp - (strings.map fun s => s.length + 1).sum))
      (strings.reverse.flatMap fun s => s ++ [0])) :
    List.Forall₂ (fun k s => HoldsBytes mem (ub + BitVec.ofNat 64 k) (s ++ [0])) (Argv.stringAt sp strings) strings := by
  induction strings generalizing sp with
  | nil => exact .nil
  | cons s strings ih =>
      rw [List.map_cons, List.sum_cons] at hfit h
      rw [List.reverse_cons, List.flatMap_append, ← Nat.sub_sub] at h
      have hlen : (strings.reverse.flatMap fun s => s ++ [0]).length = (strings.map fun s => s.length + 1).sum := by
        rw [List.length_flatMap, List.map_reverse, List.sum_reverse]
        simp
      have hright := h.right
      have hsum : ub + BitVec.ofNat 64 (sp - (s.length + 1) - (strings.map fun s => s.length + 1).sum) +
          BitVec.ofNat 64 (strings.map fun s => s.length + 1).sum = ub + BitVec.ofNat 64 (sp - (s.length + 1)) := by
        rw [BitVec.add_assoc, ← BitVec.ofNat_add, Nat.sub_add_cancel (by omega)]
      rw [hlen, hsum, List.flatMap_singleton] at hright
      exact .cons hright (ih (sp - (s.length + 1)) (by omega) h.left)

/-- The places of the strings go down, each string below the one before it. -/
theorem stringAt_places (strings : List Bytes) (sp : ℕ) (hfit : (strings.map fun s => s.length + 1).sum ≤ sp) :
    (∀ p ∈ (Argv.stringAt sp strings).zip (strings.map fun s => s.length + 1),
      sp - (strings.map fun s => s.length + 1).sum ≤ p.1 ∧ p.1 + p.2 ≤ sp) ∧
    ((Argv.stringAt sp strings).zip (strings.map fun s => s.length + 1)).Pairwise fun p q => q.1 + q.2 ≤ p.1 := by
  induction strings generalizing sp with
  | nil => exact ⟨nofun, .nil⟩
  | cons s strings ih =>
      rw [List.map_cons, List.sum_cons] at hfit ⊢
      obtain ⟨hbounds, hpairs⟩ := ih (sp - (s.length + 1)) (by omega)
      rw [Argv.stringAt, List.zip_cons_cons]
      refine ⟨fun p hp => ?_, List.pairwise_cons.mpr ⟨fun p hp => (hbounds p hp).2, hpairs⟩⟩
      rcases List.mem_cons.mp hp with rfl | hp
      · dsimp only
        omega
      · obtain ⟨hlow, hhigh⟩ := hbounds p hp
        omega

/-- Addresses in the stack do not wrap. -/
theorem toNat_inStack (hub : ub.toNat + STK_SIZE ≤ 2 ^ 64) {k : ℕ} (hk : k < STK_SIZE) :
    (ub + BitVec.ofNat 64 k).toNat = ub.toNat + k := by
  have hsize : STK_SIZE < 2 ^ 64 := by decide
  rw [BitVec.toNat_add, BitVec.toNat_ofNat, Nat.mod_eq_of_lt (hk.trans hsize), Nat.mod_eq_of_lt (by omega)]

theorem map_eq_of_forall₂ {α β γ : Type} {R : α → β → Prop} {f : α → γ} {g : β → γ} {xs : List α} {ys : List β}
    (h : List.Forall₂ R xs ys) (hfg : ∀ x y, y ∈ ys → R x y → f x = g y) : xs.map f = ys.map g := by
  induction h with
  | nil => rfl
  | @cons x y xs ys hxy _ ih =>
      rw [List.map_cons, List.map_cons, hfg x y List.mem_cons_self hxy,
        ih fun x' y' hy' => hfg x' y' (List.mem_cons_of_mem y hy')]

theorem step_word (a : BitVec 64) (n : ℕ) : a + BitVec.ofNat 64 (8 * n) + 8 = a + BitVec.ofNat 64 (8 * (n + 1)) := by
  have hstep : BitVec.ofNat 64 (8 * (n + 1)) = BitVec.ofNat 64 (8 * n) + 8 := by
    rw [Nat.mul_succ, BitVec.ofNat_add]
    rfl
  rw [hstep, BitVec.add_assoc]

/-- The vector of the words is the start that is read back. -/
theorem readStart_of_words {a : BitVec 64} {ptrs : List (BitVec 64)} {es : List (BitVec 64 × BitVec 64)}
    {ws : List (BitVec 64)} {fuel : ℕ} (hcount : ptrs.length < 2 ^ 64) (hes : ∀ e ∈ es, e.1 ≠ 0)
    (hfuel : es.length < fuel)
    (h : HoldsWords mem a ((BitVec.ofNat 64 ptrs.length :: ptrs) ++
      0 :: 0 :: (es.flatMap (fun e => [e.1, e.2]) ++ 0 :: ws))) :
    readStart mem fuel a = some ⟨ptrs, [], es⟩ := by
  obtain ⟨hargs, htail⟩ := h.append
  have hargc : (readWord mem a).toNat = ptrs.length := by
    rw [hargs.head, BitVec.toNat_ofNat, Nat.mod_eq_of_lt hcount]
  have hargv : ((List.range ptrs.length).map fun i => readWord mem (a + BitVec.ofNat 64 (8 * (i + 1)))) = ptrs := by
    apply List.ext_getElem?
    intro i
    rw [List.getElem?_map]
    by_cases hi : i < ptrs.length
    · rw [List.getElem?_range hi, Option.map_some, List.getElem?_eq_getElem hi]
      exact congrArg some (hargs (i + 1) _ (List.getElem?_eq_getElem hi))
    · rw [List.getElem?_eq_none (by simpa using hi), List.getElem?_eq_none (by simpa using hi), Option.map_none]
  rw [List.length_cons] at htail
  have hnull := htail.head
  have htail := htail.tail
  have haux := htail.tail
  rw [step_word] at htail haux
  rw [step_word] at haux
  have henv : readPointers mem fuel (a + BitVec.ofNat 64 (8 * (ptrs.length + 2))) = some [] := by
    cases fuel with
    | zero => exact absurd hfuel (Nat.not_lt_zero _)
    | succ n => exact if_pos htail.head
  rw [readStart, hargc, if_pos hnull, henv]
  simp only [Option.bind_eq_bind, Option.bind_some, List.length_nil, Nat.add_zero]
  rw [haux.readAuxv hes hfuel, hargv]
  rfl

/-- What is read back of a stack that holds what was copied out. -/
theorem recovered_of_holds (hpage : ub.toNat % 4096 = 0) (hub : ub.toNat + STK_SIZE ≤ 2 ^ 64)
    (h : HoldsBytes mem (ub + BitVec.ofNat 64 args.vectorBase) (initialStack args li gate ub vdso)) :
    ∃ start rnd, Recovered mem ub (ub + BitVec.ofNat 64 args.vectorBase) args li gate vdso start rnd := by
  obtain ⟨haligned, hvector, hrandom, hstrings⟩ := args.vectorBase_spec
  have hsize : STK_SIZE < 2 ^ 64 := by decide
  have hnine : 9 < STK_SIZE := by decide
  have hwords : 21 ≤ vectorWords args.argc := by
    rw [vectorWords]
    omega
  have hargc : args.argc < STK_SIZE := by
    have hwords : vectorWords args.argc = args.argc + 21 := by
      rw [vectorWords]
      omega
    omega
  have hrsp : (ub + BitVec.ofNat 64 args.vectorBase).toNat = ub.toNat + args.vectorBase :=
    toNat_inStack hub (by omega)
  have hrnd : (ub + BitVec.ofNat 64 args.randomBase).toNat = ub.toNat + args.randomBase :=
    toNat_inStack hub (by omega)
  rw [initialStack] at h
  have hvec := h.left.left.left.words
  have hgap : (List.flatMap (fun w : BitVec 64 => leBytes 8 w.toNat) (initialVector args li gate ub vdso) ++
      List.replicate (args.randomBase - args.vectorBase - 8 * vectorWords args.argc) 0).length =
      args.randomBase - args.vectorBase := by
    rw [List.length_append, length_words, length_initialVector, List.length_replicate]
    omega
  have hrandombytes : HoldsBytes mem (ub + BitVec.ofNat 64 args.randomBase) auxRandom := by
    have hright := h.left.right
    rw [hgap, BitVec.add_assoc, ← BitVec.ofNat_add, Nat.add_sub_cancel' (by omega)] at hright
    exact hright
  have hstringbytes : HoldsBytes mem (ub + BitVec.ofNat 64 (STK_SIZE - (args.strings.map fun s => s.length + 1).sum))
      (args.strings.reverse.flatMap fun s => s ++ [0]) := by
    have hright := h.right
    have hlen : auxRandom.length = 16 := rfl
    rw [List.length_append, hgap, hlen, BitVec.add_assoc, ← BitVec.ofNat_add] at hright
    have hbase : args.vectorBase + (args.randomBase - args.vectorBase + 16) =
        STK_SIZE - (args.strings.map fun s => s.length + 1).sum := by omega
    rw [hbase] at hright
    exact hright
  have hlaid := holds_strings args.strings STK_SIZE (by omega) hstringbytes
  obtain ⟨hplaces, hdown⟩ := stringAt_places args.strings STK_SIZE (by omega)
  have hcount := length_stringAt STK_SIZE args.strings
  generalize hptrs : (Argv.stringAt STK_SIZE args.strings).map (fun k => ub + BitVec.ofNat 64 k) = ptrs
  have hlength : ptrs.length = args.argc := by
    rw [← hptrs, List.length_map, hcount]
    rfl
  have hread : readStart mem STK_SIZE (ub + BitVec.ofNat 64 args.vectorBase) =
      some ⟨ptrs, [], auxiliary li gate (ub + BitVec.ofNat 64 args.randomBase) vdso⟩ := by
    have hlist : HoldsWords mem (ub + BitVec.ofNat 64 args.vectorBase) ((BitVec.ofNat 64 ptrs.length :: ptrs) ++
        0 :: 0 :: ((auxiliary li gate (ub + BitVec.ofNat 64 args.randomBase) vdso).flatMap
          (fun e => [e.1, e.2]) ++ 0 :: [0])) := by
      rw [hlength, ← hptrs]
      exact hvec
    refine readStart_of_words (by omega) ?_ (lt_trans (by decide : 8 < 9) hnine) hlist
    simp [auxiliary]
  have hregions : (ub + BitVec.ofNat 64 args.vectorBase, 8 * vectorWords args.argc) ::
      (ub + BitVec.ofNat 64 args.randomBase, 16) :: ptrs.zip (args.strings.map fun s => s.length + 1) =
      ((args.vectorBase, 8 * vectorWords args.argc) :: (args.randomBase, 16) ::
        (Argv.stringAt STK_SIZE args.strings).zip (args.strings.map fun s => s.length + 1)).map
        (Prod.map (fun k => ub + BitVec.ofNat 64 k) id) := by
    rw [← hptrs, List.zip_map_left]
    rfl
  have hsizeof : ProcessStart.size ⟨ptrs, [], auxiliary li gate (ub + BitVec.ofNat 64 args.randomBase) vdso⟩ =
      8 * vectorWords args.argc := by
    rw [ProcessStart.size, hlength, vectorWords]
    simp only [auxiliary, List.length_cons, List.length_nil]
  have hinside : ∀ q ∈ (args.vectorBase, 8 * vectorWords args.argc) :: (args.randomBase, 16) ::
      (Argv.stringAt STK_SIZE args.strings).zip (args.strings.map fun s => s.length + 1),
      q.1 < STK_SIZE ∧ q.1 + q.2 ≤ STK_SIZE := by
    intro q hq
    rcases List.mem_cons.mp hq with rfl | hq
    · dsimp only
      omega
    rcases List.mem_cons.mp hq with rfl | hq
    · dsimp only
      omega
    · obtain ⟨-, hhigh⟩ := hplaces q hq
      obtain ⟨s, -, hs⟩ := List.mem_map.mp (List.of_mem_zip hq).2
      omega
  refine ⟨_, ub + BitVec.ofNat 64 args.randomBase, hread, ?_, ?_, rfl, rfl, hrandombytes.readBytes, ?_, ?_⟩
  · rw [hrsp]
    omega
  · rw [← hptrs, List.map_map]
    apply map_eq_of_forall₂ hlaid
    intro k s hs hk
    have hlen : s.length + 1 ≤ (args.strings.map fun s => s.length + 1).sum :=
      List.single_le_sum (fun _ _ => Nat.zero_le _) _ (List.mem_map_of_mem hs)
    exact hk.readString (args.text s hs) (by omega)
  · intro p hp
    rw [hsizeof, hregions] at hp
    obtain ⟨q, hq, rfl⟩ := List.mem_map.mp hp
    obtain ⟨hlow, hhigh⟩ := hinside q hq
    have haddr := toNat_inStack hub hlow
    rw [InStack, Prod.map_fst, Prod.map_snd, haddr, id]
    omega
  · rw [hsizeof, hregions, List.pairwise_map]
    have hoffsets : ((args.vectorBase, 8 * vectorWords args.argc) :: (args.randomBase, 16) ::
        (Argv.stringAt STK_SIZE args.strings).zip (args.strings.map fun s => s.length + 1)).Pairwise
        fun p q => p.1 + p.2 ≤ q.1 ∨ q.1 + q.2 ≤ p.1 := by
      refine List.pairwise_cons.mpr ⟨fun q hq => .inl ?_, List.pairwise_cons.mpr ⟨fun q hq => .inl ?_, ?_⟩⟩
      · rcases List.mem_cons.mp hq with rfl | hq
        · exact hvector
        · have hlow := (hplaces q hq).1
          dsimp only
          omega
      · have hlow := (hplaces q hq).1
        dsimp only
        omega
      · exact hdown.imp fun h => .inr h
    refine hoffsets.imp_of_mem fun {p q} hp hq h => ?_
    rw [ApartFrom, Prod.map_fst, Prod.map_fst, Prod.map_snd, Prod.map_snd, toNat_inStack hub (hinside p hp).1,
      toNat_inStack hub (hinside q hq).1, id, id]
    omega

/-- What the contract says of the calls that succeed: a range lies at a page and within the address
space, and `user_copy_out` writes its bytes. -/
structure Substrate.Places (S : Substrate σ) (V : UserView σ) : Prop where
  map : ∀ addr len kind prot x base x', (S.asMap addr len kind prot).run x = (.ok base, x') →
    base.toNat % 4096 = 0 ∧ base.toNat + len.toNat ≤ 2 ^ 64
  copyOut : ∀ va bs x u x', va.toNat + bs.length ≤ 2 ^ 64 → (S.userCopyOut va bs).run x = (.ok u, x') →
    HoldsBytes (V.byte x') va bs

theorem length_initialStack : (initialStack args li gate ub vdso).length = STK_SIZE - args.vectorBase := by
  obtain ⟨-, hvector, hrandom, hstrings⟩ := args.vectorBase_spec
  have hlen : (args.strings.reverse.flatMap fun s => s ++ [0]).length =
      (args.strings.map fun s => s.length + 1).sum := by
    rw [List.length_flatMap, List.map_reverse, List.sum_reverse]
    simp
  have hrnd : auxRandom.length = 16 := rfl
  rw [initialStack, List.length_append, List.length_append, List.length_append, length_words, length_initialVector,
    List.length_replicate, hlen, hrnd]
  omega

/-- An entry that succeeds is a start of the thread at a stack from which `_start` recovers the arguments
and the auxiliary pairs; `ub` and `vdso` are where the substrate put the stack and the vDSO. -/
theorem execEnter_recovered (hS : S.Places V) {tid : ℤ} {x x' : Loading σ} {u : Unit}
    (h : (execEnter S li gate args tid true).run x = (.ok u, x')) :
    ∃ ub vdso start rnd y₀ y₁ y₂ y,
      (mapRange S 0 (BitVec.ofNat 64 STK_SIZE) .stack (SUB_PROT_READ ||| SUB_PROT_WRITE)).run x = (.ok ub, y₀) ∧
      y₁.sub = y₀.sub ∧ (vdsoMap S).run y₁ = (.ok vdso, y₂) ∧
      (execEnter S li gate args tid true).run x =
        (onSub (S.threadStart tid li.entry (ub + BitVec.ofNat 64 args.vectorBase) 0)).run y ∧
      Recovered (V.byte y.sub) ub (ub + BitVec.ofNat 64 args.vectorBase) args li gate vdso start rnd := by
  have hrun := h
  obtain ⟨ub, y₀, hmap, h⟩ := of_run_bind h
  obtain ⟨r, y₁, hrecord, h⟩ := of_run_bind h
  obtain ⟨vdso, y₂, hvdso, h⟩ := of_run_bind h
  obtain ⟨_, y₃, hnote, h⟩ := of_run_bind h
  obtain ⟨_, y, hcopy, h⟩ := of_run_bind h
  obtain ⟨w, hasMap, -⟩ := of_run_mapRange hmap
  have hsize : (BitVec.ofNat 64 STK_SIZE).toNat = STK_SIZE := by decide
  obtain ⟨hpage, hub⟩ := hS.map _ _ _ _ _ _ _ hasMap
  rw [hsize] at hub
  have hlen : (ub + BitVec.ofNat 64 args.vectorBase).toNat + (initialStack args li gate ub vdso).length ≤ 2 ^ 64 := by
    have hwords : 0 < vectorWords args.argc := by
      rw [vectorWords]
      omega
    obtain ⟨-, hvector, hrandom, hstrings⟩ := args.vectorBase_spec
    rw [length_initialStack, toNat_inStack hub (by omega)]
    omega
  have hholds := hS.copyOut _ _ _ _ _ hlen (of_run_onSub hcopy).1
  obtain ⟨start, rnd, hrecovered⟩ := recovered_of_holds hpage hub hholds
  have hsub : y₁.sub = y₀.sub := by
    rw [run_recordRange] at hrecord
    cases hrecord
    rfl
  exact ⟨ub, vdso, start, rnd, y₀, y₁, y₂, y, hmap, hsub, hvdso, hrun.trans h.symm, hrecovered⟩

end Start

section Placed

/-- Flat memory with the stack and the vDSO at addresses of their own. -/
def placed : Substrate FlatMemory :=
  { flat with
    asMap := fun _ len kind prot => ExceptT.mk fun m =>
      let base : BitVec 64 := if kind = .stack then 0x10000000 else 0x30000000
      if base.toNat + len.toNat ≤ 2 ^ 64 then (.ok base, m.map base len prot) else (.error (), m) }

theorem placed_places : placed.Places flatView where
  map addr len kind prot x base x' h := by
    change (if _ then (Except.ok _, _) else (Except.error (), x)) = _ at h
    split_ifs at h with hstack hfits hfits
    · cases h
      exact ⟨by decide, hfits⟩
    · cases h
    · cases h
      exact ⟨by decide, hfits⟩
    · cases h
  copyOut va bs x u x' hfits h := by
    cases h
    intro k c hk
    have hlt := (List.getElem?_eq_some_iff.mp hk).1
    have haddr : (va + BitVec.ofNat 64 k).toNat = va.toNat + k := toNat_add_ofNat (by omega)
    change (if va.toNat ≤ (va + BitVec.ofNat 64 k).toNat then
      bs[(va + BitVec.ofNat 64 k).toNat - va.toNat]?.getD _ else _) = c
    rw [haddr, if_pos (Nat.le_add_right _ _), Nat.add_sub_cancel_left, hk]
    rfl

def shellArgs : Argv where
  strings := [str "sh", str "-c", str "true"]
  text := by decide
  strings_fit := by decide
  vector_fits := by decide

def shellInfo : LoadInfo := ⟨0x401000, 0x400040, 56, 3, 0x400000, 0x402000⟩

theorem execEnter_recovered_shell :
    ∃ x', (execEnter placed shellInfo 0x7000 shellArgs 1 true).run (Loading.start ⟨fun _ => 0, fun _ => none⟩) =
        (.ok (), x') ∧
      ∃ y ub vdso start rnd, Recovered (flatView.byte y) ub (ub + BitVec.ofNat 64 shellArgs.vectorBase) shellArgs
        shellInfo 0x7000 vdso start rnd := by
  have hok : ((execEnter placed shellInfo 0x7000 shellArgs 1 true).run
      (Loading.start ⟨fun _ => 0, fun _ => none⟩)).1.isOk = true := by decide +kernel
  obtain ⟨ub, vdso, start, rnd, y₀, y₁, y₂, y, -, -, -, -, hrecovered⟩ :=
    execEnter_recovered placed_places (run_of_isOk hok)
  exact ⟨_, run_of_isOk hok, y.sub, ub, vdso, start, rnd, hrecovered⟩

end Placed

end SysvNt

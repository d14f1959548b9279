import Mathlib.Logic.Function.Basic
import SysvNt.ByteMemory

/-!
# The gate

`gate_entry` is called with the registers of a Linux system call, changes to the kernel's stack,
hands the call to `gate_dispatch`, which keeps to the host's calling convention only, and puts
back what a system call preserves. The registers that the Linux convention preserves and the
host's does not are restored from the frame the arguments were pushed to, all but the first six
vector registers.
-/

namespace SysvNt

open ByteMemory

inductive Gpr where
  | rax | rbx | rcx | rdx | rsi | rdi | rbp | rsp
  | r8 | r9 | r10 | r11 | r12 | r13 | r14 | r15
  deriving DecidableEq

structure Machine where
  gpr : Gpr → Word
  xmm : Fin 16 → BitVec 128
  mem : Memory
  rip : Word

namespace Machine

def set (s : Machine) (r : Gpr) (v : Word) : Machine := { s with gpr := Function.update s.gpr r v }

def push (s : Machine) (v : Word) : Machine :=
  { s.set .rsp (s.gpr .rsp - 8) with mem := store s.mem (s.gpr .rsp - 8) v }

def pop (s : Machine) (r : Gpr) : Machine :=
  (s.set .rsp (s.gpr .rsp + 8)).set r (load s.mem (s.gpr .rsp))

end Machine

/-- The instructions of `gate.S`; `mov` has its source first, as there. -/
inductive GateInstr where
  | mov (src dst : Gpr)
  | movKstackTop (dst : Gpr)
  | movFrame (offset : Word) (dst : Gpr)
  | push (r : Gpr)
  | pop (r : Gpr)
  | addRsp (n : Word)
  | subRsp (n : Word)
  | callDispatch
  | ret

/-- One instruction. `top` is what `g_kstack_top` holds, `back` the address after the call, and
`dispatch` takes the state that `gate_dispatch` is entered in to the one it leaves. -/
def GateInstr.exec (top back : Word) (dispatch : Machine → Machine) (s : Machine) : GateInstr → Machine
  | .mov src dst => s.set dst (s.gpr src)
  | .movKstackTop dst => s.set dst top
  | .movFrame offset dst => s.set dst (load s.mem (s.gpr .rsp + offset))
  | .push r => s.push (s.gpr r)
  | .pop r => s.pop r
  | .addRsp n => s.set .rsp (s.gpr .rsp + n)
  | .subRsp n => s.set .rsp (s.gpr .rsp - n)
  | .callDispatch => dispatch (s.push back)
  | .ret => { s.set .rsp (s.gpr .rsp + 8) with rip := load s.mem (s.gpr .rsp) }

def gateCapture : List GateInstr :=
  [.mov .rsp .r11, .movKstackTop .rsp, .push .r11, .push .r9, .push .r8, .push .r10, .push .rdx,
    .push .rsi, .push .rdi, .push .rax, .mov .rsp .rcx, .subRsp 32]

def gateRestore : List GateInstr :=
  [.addRsp 32, .movFrame 8 .rdi, .movFrame 16 .rsi, .movFrame 24 .rdx, .movFrame 32 .r10,
    .movFrame 40 .r8, .movFrame 48 .r9, .addRsp 56, .pop .r11, .mov .r11 .rsp, .ret]

def gateEntry : List GateInstr := gateCapture ++ .callDispatch :: gateRestore

section Runs

variable (top back : Word) (dispatch : Machine → Machine)

def runGate (is : List GateInstr) (s : Machine) : Machine :=
  is.foldl (GateInstr.exec top back dispatch) s

def atCall (s : Machine) : Machine := runGate top back dispatch gateCapture s

def entered (s : Machine) : Machine := (atCall top back dispatch s).push back

end Runs

/-- The system call that a frame in memory describes: its number and its arguments. -/
def sysframe (m : Memory) (f : Word) : List Word :=
  [load m f, load m (f + 8), load m (f + 16), load m (f + 24), load m (f + 32), load m (f + 40),
    load m (f + 48)]

/-- What the host's convention and the frame promise of a callee entered in `e` and left in `x`:
the registers it preserves, the stack pointer popped, and neither the saved frame above its shadow
space nor the user's return address, at `usp`, written. -/
structure Win64 (usp : Word) (e x : Machine) : Prop where
  gpr : ∀ r, r = .rbx ∨ r = .rbp ∨ r = .rdi ∨ r = .rsi ∨ r = .r12 ∨ r = .r13 ∨ r = .r14 ∨ r = .r15 →
    x.gpr r = e.gpr r
  rsp : x.gpr .rsp = e.gpr .rsp + 8
  xmm : ∀ i : Fin 16, 6 ≤ i → x.xmm i = e.xmm i
  frame : ∀ k < 64, x.mem (e.gpr .rsp + 40 + BitVec.ofNat 64 k) =
    e.mem (e.gpr .rsp + 40 + BitVec.ofNat 64 k)
  user : ∀ k < 8, x.mem (usp + BitVec.ofNat 64 k) = e.mem (usp + BitVec.ofNat 64 k)

structure GateKeeps (top back : Word) (dispatch : Machine → Machine) (s : Machine) : Prop where
  aligned : ((atCall top back dispatch s).gpr .rsp).toNat % 16 = 0
  frame : sysframe (entered top back dispatch s).mem ((entered top back dispatch s).gpr .rcx) =
    [s.gpr .rax, s.gpr .rdi, s.gpr .rsi, s.gpr .rdx, s.gpr .r10, s.gpr .r8, s.gpr .r9]
  result : (runGate top back dispatch gateEntry s).gpr .rax =
    (dispatch (entered top back dispatch s)).gpr .rax
  returned : (runGate top back dispatch gateEntry s).rip = load s.mem (s.gpr .rsp)
  popped : (runGate top back dispatch gateEntry s).gpr .rsp = s.gpr .rsp + 8
  gpr : ∀ r, r ≠ .rax → r ≠ .rcx → r ≠ .r11 → r ≠ .rsp →
    (runGate top back dispatch gateEntry s).gpr r = s.gpr r
  xmm : ∀ i, (runGate top back dispatch gateEntry s).xmm i = s.xmm i

section Keeps

variable {top back : Word} {dispatch : Machine → Machine} {s : Machine}

def savedWords (s : Machine) : List Word :=
  [s.gpr .rsp, s.gpr .r9, s.gpr .r8, s.gpr .r10, s.gpr .rdx, s.gpr .rsi, s.gpr .rdi, s.gpr .rax]

theorem atCall_rsp : (atCall top back dispatch s).gpr .rsp = top - 96 := by
  change top - 8 - 8 - 8 - 8 - 8 - 8 - 8 - 8 - 32 = top - 96
  bv_omega

theorem entered_rsp : (entered top back dispatch s).gpr .rsp = top - 104 := by
  change (atCall top back dispatch s).gpr .rsp - 8 = top - 104
  rw [atCall_rsp]
  bv_omega

theorem entered_rcx : (entered top back dispatch s).gpr .rcx = slot top 7 := by
  change top - 8 - 8 - 8 - 8 - 8 - 8 - 8 - 8 = top - 64
  bv_omega

theorem entered_mem : (entered top back dispatch s).mem =
    store (pushAll s.mem top (savedWords s)) (top - 104) back := by
  change store (pushAll s.mem top (savedWords s)) ((atCall top back dispatch s).gpr .rsp - 8) back = _
  rw [atCall_rsp]
  congr 1
  bv_omega

theorem entered_gpr {r : Gpr} (hrsp : r ≠ .rsp) (hrcx : r ≠ .rcx) (hr11 : r ≠ .r11) :
    (entered top back dispatch s).gpr r = s.gpr r := by
  cases r <;> first | rfl | exact absurd rfl hrsp | exact absurd rfl hrcx | exact absurd rfl hr11

/-- The words of the frame as `gate_dispatch` finds them, the user's stack pointer above them. -/
theorem load_entered {i : ℕ} {v : Word} (hi : (savedWords s)[i]? = some v) :
    load (entered top back dispatch s).mem (slot top i) = v := by
  have hlt : i < 8 := (List.getElem?_eq_some_iff.mp hi).1
  have hapart : Apart (slot top i) (top - 104) := by
    unfold Apart slot
    constructor <;> bv_omega
  rw [entered_mem, load_store_of_apart _ _ hapart]
  exact load_pushAll hi (by simp [savedWords])

theorem entered_sysframe :
    sysframe (entered top back dispatch s).mem ((entered top back dispatch s).gpr .rcx) =
      [s.gpr .rax, s.gpr .rdi, s.gpr .rsi, s.gpr .rdx, s.gpr .r10, s.gpr .r8, s.gpr .r9] := by
  have h8 : slot top 7 + 8 = slot top 6 := by unfold slot; bv_omega
  have h16 : slot top 7 + 16 = slot top 5 := by unfold slot; bv_omega
  have h24 : slot top 7 + 24 = slot top 4 := by unfold slot; bv_omega
  have h32 : slot top 7 + 32 = slot top 3 := by unfold slot; bv_omega
  have h40 : slot top 7 + 40 = slot top 2 := by unfold slot; bv_omega
  have h48 : slot top 7 + 48 = slot top 1 := by unfold slot; bv_omega
  rw [sysframe, entered_rcx, h8, h16, h24, h32, h40, h48, load_entered rfl, load_entered rfl,
    load_entered rfl, load_entered rfl, load_entered rfl, load_entered rfl, load_entered rfl]

/-- The words of the frame as the gate restores them. -/
theorem load_left {x : Machine} (hd : Win64 (s.gpr .rsp) (entered top back dispatch s) x) {i : ℕ}
    {v : Word} (hi : (savedWords s)[i]? = some v) : load x.mem (slot top i) = v := by
  have hlt : i < 8 := (List.getElem?_eq_some_iff.mp hi).1
  rw [← load_entered hi]
  apply load_congr
  intro k hk
  have hslot : slot top i + BitVec.ofNat 64 k =
      (entered top back dispatch s).gpr .rsp + 40 + BitVec.ofNat 64 (8 * (7 - i) + k) := by
    rw [entered_rsp]
    unfold slot
    bv_omega
  rw [hslot]
  exact hd.frame _ (by omega)

/-- What is left of the state that `gate_dispatch` returned in. -/
theorem runGate_entry : runGate top back dispatch gateEntry s =
    runGate top back dispatch gateRestore (dispatch (entered top back dispatch s)) := by
  rw [runGate, gateEntry, List.foldl_append, List.foldl_cons]
  simp only [runGate, entered, atCall, GateInstr.exec]

section Restore

variable (hd : Win64 (s.gpr .rsp) (entered top back dispatch s) (dispatch (entered top back dispatch s)))
include hd

theorem left_frame : (dispatch (entered top back dispatch s)).gpr .rsp + 32 = slot top 7 := by
  rw [hd.rsp, entered_rsp]
  unfold slot
  bv_omega

theorem left_usp : load (dispatch (entered top back dispatch s)).mem
    ((dispatch (entered top back dispatch s)).gpr .rsp + 32 + 56) = s.gpr .rsp := by
  have h56 : slot top 7 + 56 = slot top 0 := by unfold slot; bv_omega
  rw [left_frame hd, h56]
  exact load_left hd rfl

theorem restored_rsp : (runGate top back dispatch gateEntry s).gpr .rsp = s.gpr .rsp + 8 := by
  rw [runGate_entry]
  change load (dispatch (entered top back dispatch s)).mem
    ((dispatch (entered top back dispatch s)).gpr .rsp + 32 + 56) + 8 = _
  rw [left_usp hd]

theorem restored_rip : (runGate top back dispatch gateEntry s).rip =
    load (entered top back dispatch s).mem (s.gpr .rsp) := by
  rw [runGate_entry]
  change load (dispatch (entered top back dispatch s)).mem
    (load (dispatch (entered top back dispatch s)).mem
      ((dispatch (entered top back dispatch s)).gpr .rsp + 32 + 56)) = _
  rw [left_usp hd]
  exact load_congr hd.user

theorem restored_argument {r : Gpr} {o : Word} {i : ℕ}
    (hload : (runGate top back dispatch gateRestore (dispatch (entered top back dispatch s))).gpr r =
      load (dispatch (entered top back dispatch s)).mem
        ((dispatch (entered top back dispatch s)).gpr .rsp + 32 + o))
    (hslot : slot top 7 + o = slot top i) (hi : (savedWords s)[i]? = some (s.gpr r)) :
    (runGate top back dispatch gateEntry s).gpr r = s.gpr r := by
  rw [runGate_entry, hload, left_frame hd, hslot]
  exact load_left hd hi

theorem restored_gpr {r : Gpr} (hrax : r ≠ .rax) (hrcx : r ≠ .rcx) (hr11 : r ≠ .r11)
    (hrsp : r ≠ .rsp) : (runGate top back dispatch gateEntry s).gpr r = s.gpr r := by
  have hkept : (r = .rbx ∨ r = .rbp ∨ r = .rdi ∨ r = .rsi ∨ r = .r12 ∨ r = .r13 ∨ r = .r14 ∨ r = .r15) →
      (runGate top back dispatch gateEntry s).gpr r = (dispatch (entered top back dispatch s)).gpr r →
      (runGate top back dispatch gateEntry s).gpr r = s.gpr r := by
    intro hr hsame
    rw [hsame, hd.gpr r hr, entered_gpr hrsp hrcx hr11]
  cases r with
  | rax => exact absurd rfl hrax
  | rcx => exact absurd rfl hrcx
  | r11 => exact absurd rfl hr11
  | rsp => exact absurd rfl hrsp
  | rdi => exact restored_argument hd (o := 8) (i := 6) rfl (by unfold slot; bv_omega) rfl
  | rsi => exact restored_argument hd (o := 16) (i := 5) rfl (by unfold slot; bv_omega) rfl
  | rdx => exact restored_argument hd (o := 24) (i := 4) rfl (by unfold slot; bv_omega) rfl
  | r10 => exact restored_argument hd (o := 32) (i := 3) rfl (by unfold slot; bv_omega) rfl
  | r8 => exact restored_argument hd (o := 40) (i := 2) rfl (by unfold slot; bv_omega) rfl
  | r9 => exact restored_argument hd (o := 48) (i := 1) rfl (by unfold slot; bv_omega) rfl
  | rbx => exact hkept (by simp) (by rw [runGate_entry]; rfl)
  | rbp => exact hkept (by simp) (by rw [runGate_entry]; rfl)
  | r12 => exact hkept (by simp) (by rw [runGate_entry]; rfl)
  | r13 => exact hkept (by simp) (by rw [runGate_entry]; rfl)
  | r14 => exact hkept (by simp) (by rw [runGate_entry]; rfl)
  | r15 => exact hkept (by simp) (by rw [runGate_entry]; rfl)

end Restore

/-- The words that the gate stores on the kernel's stack leave the user's return address as it is. -/
def ReturnSurvives (top back : Word) (s : Machine) : Prop :=
  load (store (pushAll s.mem top (savedWords s)) (top - 104) back) (s.gpr .rsp) =
    load s.mem (s.gpr .rsp)

theorem returnSurvives_of_apart
    (h : ∀ k < 13, Apart (s.gpr .rsp) (slot top k)) : ReturnSurvives top back s := by
  have hback : top - 104 = slot top 12 := by unfold slot; bv_omega
  rw [ReturnSurvives, hback, load_store_of_apart _ _ (h 12 (by omega))]
  exact load_pushAll_of_apart fun k hk => h k (Nat.lt_trans hk (by simp [savedWords]))

/-- For every state and every callee that keeps to the host's convention, the gate preserves the
user's machine if and only if the return address is not among the words it stores and the callee
leaves the first six vector registers alone. -/
theorem gate_keeps_iff (htop : top.toNat % 16 = 0)
    (hd : Win64 (s.gpr .rsp) (entered top back dispatch s) (dispatch (entered top back dispatch s))) :
    GateKeeps top back dispatch s ↔ ReturnSurvives top back s ∧
      ∀ i : Fin 16, i < 6 → (dispatch (entered top back dispatch s)).xmm i = s.xmm i := by
  have hxmm : ∀ i, (runGate top back dispatch gateEntry s).xmm i =
      (dispatch (entered top back dispatch s)).xmm i := by
    intro i
    rw [runGate_entry]
    rfl
  constructor
  · intro hk
    refine ⟨?_, fun i _ => ?_⟩
    · have hrip := restored_rip hd
      rw [entered_mem] at hrip
      rw [ReturnSurvives, ← hrip]
      exact hk.returned
    · rw [← hxmm i]
      exact hk.xmm i
  · rintro ⟨hret, hlow⟩
    refine ⟨?_, entered_sysframe, ?_, ?_, restored_rsp hd, fun r => restored_gpr hd, fun i => ?_⟩
    · rw [atCall_rsp]
      bv_omega
    · rw [runGate_entry]
      rfl
    · rw [restored_rip hd, entered_mem]
      exact hret
    · rw [hxmm i]
      by_cases hi : i < 6
      · exact hlow i hi
      · exact hd.xmm i (Fin.not_lt.mp hi)

end Keeps

/-- A callee that returns zero, and zeroes the vector registers it may or leaves them. -/
def returnZero (zeroes : Bool) (e : Machine) : Machine :=
  { (e.set .rsp (e.gpr .rsp + 8)).set .rax 0 with
    xmm := fun i => if zeroes = true ∧ i < 6 then 0 else e.xmm i }

theorem returnZero_win64 (zeroes : Bool) (usp : Word) (e : Machine) :
    Win64 usp e (returnZero zeroes e) where
  gpr r hr := by rcases hr with rfl | rfl | rfl | rfl | rfl | rfl | rfl | rfl <;> rfl
  rsp := rfl
  xmm i hi := if_neg fun h => absurd h.2 (Fin.not_lt.mpr hi)
  frame _ _ := rfl
  user _ _ := rfl

def userOnes : Machine where
  gpr r := if r = .rsp then 0x7ff0 else 0
  xmm _ := 1
  mem _ := 0
  rip := 0

/-- A callee within the convention that zeroes what it may loses the user's registers. -/
theorem gate_loses_xmm :
    Win64 (userOnes.gpr .rsp) (entered 0x10000 0x401000 (returnZero true) userOnes)
        (returnZero true (entered 0x10000 0x401000 (returnZero true) userOnes)) ∧
      (runGate 0x10000 0x401000 (returnZero true) gateEntry userOnes).xmm 0 ≠ userOnes.xmm 0 ∧
      ¬ GateKeeps 0x10000 0x401000 (returnZero true) userOnes := by
  have hlost : (runGate 0x10000 0x401000 (returnZero true) gateEntry userOnes).xmm 0 ≠
      userOnes.xmm 0 := by
    rw [runGate_entry]
    change (0 : BitVec 128) ≠ 1
    decide
  exact ⟨returnZero_win64 _ _ _, hlost, fun h => hlost (h.xmm 0)⟩

theorem gate_keeps_for_leaving_callee : GateKeeps 0x10000 0x401000 (returnZero false) userOnes := by
  refine (gate_keeps_iff (by decide) (returnZero_win64 _ _ _)).mpr
    ⟨returnSurvives_of_apart fun k hk => ?_, fun i _ => ?_⟩
  · change Apart 0x7ff0 (slot 0x10000 k)
    unfold Apart slot
    constructor <;> bv_omega
  · change (if false = true ∧ i < 6 then 0 else userOnes.xmm i) = userOnes.xmm i
    rw [if_neg (fun h => Bool.false_ne_true h.1)]

end SysvNt

import SysvNt.ReadKinds
import SysvNt.Synthetic
import SysvNt.TextFields
import SysvNt.VmaRender

/-!
# Reading `/proc/self/maps`

An open of the listing renders the ranges in a block of its own, which has room for every line there
can be. Reads of any lengths give the text in pieces, and a reader that goes by the positions of the
fields gets the recorded ranges back, each with what it was recorded with.
-/

namespace SysvNt

open FallibleCalls TextFields

/-- What `procfs_open` allocates for the listing. -/
def MAPS_SIZE : ℕ := 65536

/-- The text `procfs_open` makes of the ranges, in a block as it was allocated. -/
def VmaArray.mapsText (a : VmaArray) (block : Bytes) : Option Bytes :=
  match a.renderMaps (some block) block.length with
  | some (n, some s) => some (s.take n)
  | _ => none

structure MapsEntry where
  start : ℕ
  stop : ℕ
  readable : Bool
  writable : Bool
  executable : Bool
  shared : Bool
  offset : ℕ
  name : Bytes
  deriving DecidableEq

def Vma.entry (v : Vma) : MapsEntry where
  start := v.start.toNat
  stop := v.stop.toNat
  readable := has v.prot SUB_PROT_READ
  writable := has v.prot SUB_PROT_WRITE
  executable := has v.prot SUB_PROT_EXEC
  shared := v.kind = .section
  offset := v.offset.toNat
  name := v.name

namespace MapsListing

def hexValue (c : UInt8) : Option ℕ :=
  if 0x30 ≤ c ∧ c ≤ 0x39 then some (c.toNat - 0x30)
  else if 0x61 ≤ c ∧ c ≤ 0x66 then some (c.toNat - 0x57)
  else none

/-- A number in hexadecimal, of one digit at least, and what follows it. -/
def readHex (t : Bytes) : Option (ℕ × Bytes) :=
  if (t.head?.bind hexValue).isSome then some (number hexValue 16 0 t) else none

def skip (s t : Bytes) : Option Bytes := if s.isPrefixOf t then some (t.drop s.length) else none

/-- A letter, or what stands in its place. -/
def readFlag (yes no : UInt8) : Bytes → Option (Bool × Bytes)
  | [] => none
  | c :: t => if c = yes then some (true, t) else if c = no then some (false, t) else none

/-- A line, as a reader by position takes it. -/
def readEntry (line : Bytes) : Option MapsEntry := do
  let start ← readHex line
  let stop ← skip (str "-") start.2 >>= readHex
  let r ← skip (str " ") stop.2 >>= readFlag 0x72 0x2d
  let w ← readFlag 0x77 0x2d r.2
  let x ← readFlag 0x78 0x2d w.2
  let s ← readFlag 0x73 0x70 x.2
  let offset ← skip (str " ") s.2 >>= readHex
  let rest ← skip (str " 00:00 0 ") offset.2
  pure ⟨start.1, stop.1, r.1, w.1, x.1, s.1, offset.1, rest.dropWhile (· = 0x20)⟩

def readMaps (text : Bytes) : Option (List MapsEntry) :=
  if (pieces 0x0a text).2 = [] then (pieces 0x0a text).1.mapM readEntry else none

/-- What reads of the given lengths give, one after the other. -/
def reads : Snapshot → List ℕ → List Bytes
  | _, [] => []
  | f, n :: ns =>
    match (snapRead f n).1 with
    | .ok b => b :: reads (snapRead f n).2 ns
    | .error _ => reads (snapRead f n).2 ns

/-- A name that a line can carry: of one line, and no blank in front. -/
def Legible (name : Bytes) : Prop := 0x0a ∉ name ∧ name.head? ≠ some 0x20

instance (name : Bytes) : Decidable (Legible name) :=
  inferInstanceAs (Decidable (0x0a ∉ name ∧ name.head? ≠ some 0x20))

section Line

theorem hexValue_digit : ∀ d < 16, hexValue (Nat.digitChar d).toNat.toUInt8 = some d := by decide

theorem hexField_digits {width n : ℕ} : ∀ c ∈ VmaArray.hexField width n, (hexValue c).isSome := by
  intro c hc
  rw [VmaArray.hexField] at hc
  rcases List.mem_append.mp hc with hc | hc
  · rw [List.eq_of_mem_replicate hc]
    rfl
  · exact isSome_toDigits (by decide) hexValue_digit n c hc

theorem withDigits_hexField (width n : ℕ) : withDigits hexValue 16 0 (VmaArray.hexField width n) = n := by
  have hzero : hexValue 0x30 = some 0 := rfl
  rw [VmaArray.hexField, withDigits_append, withDigits_zeros hzero]
  exact withDigits_toDigits (by decide) hexValue_digit n

theorem hexField_ne_nil (width n : ℕ) : VmaArray.hexField width n ≠ [] := by
  intro h
  rw [VmaArray.hexField] at h
  have hdigits := List.map_eq_nil_iff.mp (List.append_eq_nil_iff.mp h).2
  exact Nat.toDigits_ne_nil hdigits

/-- A field that ends where its digits do is read back. -/
theorem readHex_hexField (width n : ℕ) {rest : Bytes} (hrest : ∀ c ∈ rest.head?, hexValue c = none) :
    readHex (VmaArray.hexField width n ++ rest) = some (n, rest) := by
  obtain ⟨c, cs, hfield⟩ := List.exists_cons_of_ne_nil (hexField_ne_nil width n)
  have hdigit : ((VmaArray.hexField width n ++ rest).head?.bind hexValue).isSome := by
    rw [hfield]
    exact hexField_digits c (hfield ▸ List.mem_cons_self)
  rw [readHex, if_pos hdigit, number_append hexField_digits hrest, withDigits_hexField]

theorem skip_append (s t : Bytes) : skip s (s ++ t) = some t := by
  rw [skip, if_pos (by simp), List.drop_left]

theorem readFlag_write {yes no : UInt8} (hne : no ≠ yes) (b : Bool) (t : Bytes) :
    readFlag yes no ((if b then yes else no) :: t) = some (b, t) := by
  cases b with
  | true => simp [readFlag]
  | false => simp [readFlag, hne]

theorem dropWhile_pad {name : Bytes} (hname : name.head? ≠ some 0x20) (n : ℕ) :
    (List.replicate n 0x20 ++ name).dropWhile (· = 0x20) = name := by
  induction n with
  | zero =>
      cases name with
      | nil => rfl
      | cons c cs =>
          have hc : c ≠ 0x20 := fun h => hname (by rw [h]; rfl)
          simp [hc]
  | succ n ih => simpa [List.replicate_succ] using ih

def lineBody (v : Vma) : Bytes :=
  VmaArray.hexField 12 v.start.toNat ++ (str "-" ++ (VmaArray.hexField 12 v.stop.toNat ++ (str " " ++
    (VmaArray.perms v ++ (str " " ++ (VmaArray.hexField 8 v.offset.toNat ++ (str " 00:00 0 " ++
      (List.replicate (if v.name = [] then 0 else 20) 0x20 ++ v.name))))))))

theorem mapsLine_eq {v : Vma} (hv : 0 ∉ v.name) : VmaArray.mapsLine v = lineBody v ++ [0x0a] := by
  have hname : cstr v.name = v.name :=
    List.takeWhile_eq_self_iff.mpr fun c hc => by
      have hne : c ≠ 0 := fun h => hv (h ▸ hc)
      simpa using hne
  have hend : str "\n" = [0x0a] := rfl
  rw [VmaArray.mapsLine, hname, hend, lineBody]
  simp only [List.append_assoc]

/-- The line of a range is read back as the range. -/
theorem readEntry_lineBody {v : Vma} (hv : Legible v.name) : readEntry (lineBody v) = some v.entry := by
  have hperms (t : Bytes) : VmaArray.perms v ++ t =
      (if has v.prot SUB_PROT_READ then 0x72 else 0x2d) :: (if has v.prot SUB_PROT_WRITE then 0x77 else 0x2d) ::
        (if has v.prot SUB_PROT_EXEC then 0x78 else 0x2d) ::
          (if (decide (v.kind = .section)) = true then 0x73 else 0x70) :: t := by
    simp [VmaArray.perms]
  have hdash (t : Bytes) : ∀ c ∈ (str "-" ++ t).head?, hexValue c = none := by
    intro c hc
    cases hc
    rfl
  have hblank (t : Bytes) : ∀ c ∈ (str " " ++ t).head?, hexValue c = none := by
    intro c hc
    cases hc
    rfl
  have hdevice (t : Bytes) : ∀ c ∈ (str " 00:00 0 " ++ t).head?, hexValue c = none := by
    intro c hc
    cases hc
    rfl
  rw [readEntry, lineBody, readHex_hexField 12 _ (hdash _)]
  simp only [Option.bind_eq_bind, Option.bind_some, skip_append]
  rw [readHex_hexField 12 _ (hblank _)]
  simp only [Option.bind_some, skip_append]
  rw [hperms, readFlag_write (by decide)]
  simp only [Option.bind_some]
  rw [readFlag_write (by decide)]
  simp only [Option.bind_some]
  rw [readFlag_write (by decide)]
  simp only [Option.bind_some]
  rw [readFlag_write (by decide)]
  simp only [Option.bind_some, skip_append]
  rw [readHex_hexField 8 _ (hdevice _)]
  simp only [Option.bind_some, skip_append, dropWhile_pad hv.2]
  rfl

theorem newline_not_mem_lineBody {v : Vma} (hv : Legible v.name) : 0x0a ∉ lineBody v := by
  have hfield (width n : ℕ) : 0x0a ∉ VmaArray.hexField width n := by
    intro h
    have hdigit := hexField_digits 0x0a h
    cases hdigit
  have hperms : 0x0a ∉ VmaArray.perms v := by
    simp only [VmaArray.perms, List.mem_cons, List.not_mem_nil, or_false, not_or]
    refine ⟨?_, ?_, ?_, ?_⟩ <;> split_ifs <;> decide
  have hpad (n : ℕ) : 0x0a ∉ List.replicate n (0x20 : UInt8) := by
    intro h
    have heq := List.eq_of_mem_replicate h
    cases heq
  have hdash : 0x0a ∉ str "-" := by decide
  have hblank : 0x0a ∉ str " " := by decide
  have hdevice : 0x0a ∉ str " 00:00 0 " := by decide
  simp only [lineBody, List.mem_append, not_or]
  exact ⟨hfield _ _, hdash, hfield _ _, hblank, hperms, hblank, hfield _ _, hdevice, hpad _, hv.1⟩

/-- The lines of ranges are read back as the ranges. -/
theorem readMaps_lines {vs : List Vma} (hnul : ∀ v ∈ vs, 0 ∉ v.name) (hvs : ∀ v ∈ vs, Legible v.name) :
    readMaps (vs.map VmaArray.mapsLine).flatten = some (vs.map Vma.entry) := by
  have htext : (vs.map VmaArray.mapsLine).flatten = (vs.map lineBody).flatMap (· ++ [0x0a]) := by
    rw [List.flatMap_map, List.flatMap_def]
    exact congrArg List.flatten (List.map_congr_left fun v hv => mapsLine_eq (hnul v hv))
  have hpieces : pieces 0x0a (vs.map VmaArray.mapsLine).flatten = (vs.map lineBody, []) := by
    rw [htext]
    refine pieces_flatMap fun p hp => ?_
    obtain ⟨v, hv, rfl⟩ := List.mem_map.mp hp
    exact newline_not_mem_lineBody (hvs v hv)
  rw [readMaps, hpieces, if_pos rfl]
  clear htext hpieces
  induction vs with
  | nil => rfl
  | cons v vs ih =>
      have hrest := ih (fun w hw => hnul w (List.mem_cons_of_mem v hw)) fun w hw => hvs w (List.mem_cons_of_mem v hw)
      rw [List.map_cons, List.mapM_cons, readEntry_lineBody (hvs v List.mem_cons_self), hrest]
      rfl

end Line

section Text

open VmaArray

/-- A call that records a range under a name that a line can carry, if under any. -/
def NamedLegibly (c : Call) : Prop := Legible (c.name.getD [])

theorem NamedLegibly.range {c : Call} (h : NamedLegibly c) : Legible c.range.name := by
  have hpre : c.range.name <+: c.name.getD [] :=
    (List.take_prefix _ _).trans (List.takeWhile_prefix _)
  refine ⟨fun hnl => h.1 (hpre.subset hnl), fun hblank => h.2 ?_⟩
  obtain ⟨rest, hrest⟩ := hpre
  rw [← hrest, List.head?_append, hblank]
  rfl

/-- The ranges that a run leaves were there or are those of its calls. -/
theorem mem_run_ranges {calls : List Call} {a : VmaArray} {t : VmaTree} (h : a.Holds t) {v : Vma}
    (hv : v ∈ (a.run calls).ranges) : v ∈ a.ranges ∨ ∃ c ∈ calls, v = c.range := by
  induction calls generalizing a t with
  | nil => exact .inl hv
  | cons c calls ih =>
      have hrun : a.run (c :: calls) = (a.record c).2.run calls := rfl
      rw [hrun] at hv
      rcases h.record c with ⟨_, hsame⟩ | ⟨_, a', t', hnew, h', hranges⟩
      · rw [hsame] at hv
        rcases ih h hv with hv | ⟨d, hd, rfl⟩
        · exact .inl hv
        · exact .inr ⟨d, List.mem_cons_of_mem c hd, rfl⟩
      · rw [hnew] at hv
        rcases ih h' hv with hv | ⟨d, hd, rfl⟩
        · rw [hranges] at hv
          rcases List.mem_cons.mp ((insertVma_perm _ _).mem_iff.mp hv) with rfl | hv
          · exact .inr ⟨c, List.mem_cons_self, rfl⟩
          · exact .inl hv
        · exact .inr ⟨d, List.mem_cons_of_mem c hd, rfl⟩

theorem length_flatten_le {n : ℕ} {ls : List Bytes} (h : ∀ l ∈ ls, l.length ≤ n) :
    ls.flatten.length ≤ n * ls.length := by
  induction ls with
  | nil => exact Nat.zero_le _
  | cons l ls ih =>
      have hl := h l List.mem_cons_self
      have hrest := ih fun m hm => h m (List.mem_cons_of_mem l hm)
      rw [List.flatten_cons, List.length_append, List.length_cons, Nat.mul_succ]
      omega

/-- The lines of a tree take less than the block. -/
theorem lines_fit {a : VmaArray} {t : VmaTree} (h : a.Holds t) :
    (a.ranges.map mapsLine).flatten.length < MAPS_SIZE := by
  have hline : ∀ l ∈ a.ranges.map mapsLine, l.length ≤ LINE_SIZE := by
    intro l hl
    obtain ⟨v, hv, rfl⟩ := List.mem_map.mp hl
    exact (mapsLine_fits (h.named v hv).2).le
  have hcount : a.ranges.length ≤ VMA_MAX := by
    rw [h.same]
    exact t.bounded
  have hsum := length_flatten_le hline
  rw [List.length_map] at hsum
  simp only [LINE_SIZE, VMA_MAX, MAPS_SIZE] at hsum hcount ⊢
  omega

/-- The listing has every line. -/
theorem mapsText_eq {a : VmaArray} {t : VmaTree} (h : a.Holds t) {block : Bytes} (hblock : block.length = MAPS_SIZE) :
    a.mapsText block = some (a.ranges.map mapsLine).flatten := by
  obtain ⟨used, buf, hrender, hlisted⟩ := h.renders block
  have hne : block ≠ [] := by
    rintro rfl
    cases hblock
  rw [if_neg hne] at hlisted
  obtain ⟨k, hk, hused, -, htake, hmost⟩ := hlisted.most
  have hall : (a.ranges.map mapsLine).length ≤ k := by
    refine hmost _ le_rfl ?_
    rw [List.take_length, hblock]
    exact lines_fit h
  rw [List.take_of_length_le hall] at hused htake
  have htext : buf.take used = (a.ranges.map mapsLine).flatten := by
    have hcut := congrArg (List.take used) htake
    rwa [List.take_take, min_eq_left (Nat.le_succ _), hused, List.take_left, ← hused] at hcut
  rw [mapsText, hrender]
  exact congrArg some htext

/-- What reads of a listing give goes on from the position, and is all of the rest once one of them
gives nothing. -/
theorem reads_flatten (f : Snapshot) {ns : List ℕ} (hns : ∀ n ∈ ns, 0 < n) :
    ∃ rest, f.text.drop f.pos.toNat = (reads f ns).flatten ++ rest ∧ ([] ∈ reads f ns → rest = []) := by
  induction ns generalizing f with
  | nil => exact ⟨f.text.drop f.pos.toNat, rfl, fun h => by cases h⟩
  | cons n ns ih =>
      have hn := hns n List.mem_cons_self
      have htail := fun m hm => hns m (List.mem_cons_of_mem n hm)
      by_cases hend : f.text.length ≤ f.pos.toNat
      · have hread : snapRead f n = (.ok [], f) := by rw [snapRead, if_pos hend]
        obtain ⟨rest, hrest, -⟩ := ih f htail
        have hnil : f.text.drop f.pos.toNat = [] := List.drop_eq_nil_of_le hend
        rw [reads, hread]
        rw [hnil] at hrest ⊢
        refine ⟨rest, by simpa using hrest, fun _ => ?_⟩
        exact (List.append_eq_nil_iff.mp hrest.symm).2
      · have hread : snapRead f n = (.ok ((f.text.drop f.pos.toNat).take n),
            { f with pos := f.pos + UInt64.ofNat ((f.text.drop f.pos.toNat).take n).length }) := by
          rw [snapRead, if_neg hend]
        have hb : (f.text.drop f.pos.toNat).take n ≠ [] := by
          intro h
          have hlen := congrArg List.length h
          rw [List.length_take, List.length_drop, List.length_nil] at hlen
          omega
        have hpos : (f.pos + UInt64.ofNat ((f.text.drop f.pos.toNat).take n).length).toNat =
            f.pos.toNat + ((f.text.drop f.pos.toNat).take n).length := by
          have hfits := f.fits
          have hlen : ((f.text.drop f.pos.toNat).take n).length ≤ f.text.length - f.pos.toNat := by
            rw [List.length_take, List.length_drop]
            exact min_le_right _ _
          rw [UInt64.toNat_add, UInt64.toNat_ofNat', Nat.mod_eq_of_lt (a := List.length _) (by omega)]
          exact Nat.mod_eq_of_lt (by omega)
        obtain ⟨rest, hrest, hlast⟩ :=
          ih { f with pos := f.pos + UInt64.ofNat ((f.text.drop f.pos.toNat).take n).length } htail
        rw [reads, hread]
        refine ⟨rest, ?_, fun h => hlast ?_⟩
        · dsimp only at hrest
          rw [hpos, ← List.drop_drop] at hrest
          have hwhole := List.prefix_iff_eq_append.mp (List.take_prefix n (f.text.drop f.pos.toNat))
          rw [hrest] at hwhole
          rw [List.flatten_cons, List.append_assoc]
          exact hwhole.symm
        · rcases List.mem_cons.mp h with h | h
          · exact absurd h.symm hb
          · exact h

/-- Whatever has been recorded, an open of the listing has a line for each range, and reading it
through gives each of them back, with what it was recorded with. -/
theorem maps_read_back {calls : List Call} (hnames : ∀ c ∈ calls, NamedLegibly c) {block : Bytes}
    (hblock : block.length = MAPS_SIZE) :
    ∃ text, (reset.run calls).mapsText block = some text ∧
      (∀ {η σ : Type} (H : HostStore η σ) (pv : ProcView) (rel path : Bytes) (flags : UInt32) (g : SynthFile) (x y : σ),
        pv.maps = text → procClassify pv rel = some .maps → (procfsOpen H pv rel flags).run x = (.ok (g, path), y) →
          g = .procFile text) ∧
      ∀ (f : Snapshot) (ns : List ℕ), f.text = text → f.pos = 0 → (∀ n ∈ ns, 0 < n) → [] ∈ reads f ns →
        readMaps (reads f ns).flatten = some ((reset.run calls).ranges.map Vma.entry) := by
  obtain ⟨t, h⟩ := run_holds calls reset_holds
  refine ⟨_, mapsText_eq h hblock, ?_, ?_⟩
  · intro η σ H pv rel path flags g x y hmaps hcls hopen
    have hlnk : isLnk (procMode .maps) = false := by decide
    have hdir : isDir (procMode .maps) = false := by decide
    rw [procfsOpen, hcls] at hopen
    simp only [hlnk, hdir, Bool.false_eq_true, ↓reduceIte] at hopen
    obtain ⟨_, _, _, hopen⟩ := of_run_bind hopen
    obtain ⟨_, _, _, hopen⟩ := of_run_bind hopen
    cases hopen
    rw [hmaps]
  · intro f ns htext hpos hns hend
    obtain ⟨rest, hrest, hlast⟩ := reads_flatten f hns
    rw [hlast hend, List.append_nil, hpos, htext] at hrest
    have hzero : (0 : UInt64).toNat = 0 := rfl
    rw [← hrest, hzero, List.drop_zero]
    refine readMaps_lines (fun v hv => (h.named v hv).1) fun v hv => ?_
    rcases mem_run_ranges reset_holds hv with hv | ⟨c, hc, rfl⟩
    · cases hv
    · exact (hnames c hc).range

def stackCall : Call := ⟨0x7fff00000000, 0x1000, SUB_PROT_READ ||| SUB_PROT_WRITE, .stack, 0, some (str "[stack]")⟩

def codeCall : Call := ⟨0x400000, 0x2000, SUB_PROT_READ ||| SUB_PROT_EXEC, .file, 0x1000, some (str "/bin/true")⟩

/-- The listing of the two, recorded with the higher first. -/
def twoRanges : Snapshot :=
  ⟨((reset.run [stackCall, codeCall]).ranges.map mapsLine).flatten, 0, by decide +kernel⟩

/-- Reads of 48 bytes, the second of which has the end of a line and the start of the next. -/
theorem stack_read_back :
    (reset.run [stackCall, codeCall]).mapsText (List.replicate MAPS_SIZE 0) = some twoRanges.text ∧
      (∃ b ∈ reads twoRanges (List.replicate 5 48), (0x0a : UInt8) ∈ b.dropLast) ∧
      readMaps (reads twoRanges (List.replicate 5 48)).flatten =
        some [⟨0x400000, 0x402000, true, false, true, false, 0x1000, str "/bin/true"⟩,
          ⟨0x7fff00000000, 0x7fff00001000, true, true, false, false, 0, str "[stack]"⟩] := by
  have hnames : ∀ c ∈ [stackCall, codeCall], NamedLegibly c := by
    intro c hc
    rcases List.mem_pair.mp hc with rfl | rfl
    · exact ⟨by decide, by decide⟩
    · exact ⟨by decide, by decide⟩
  have hblock : (List.replicate MAPS_SIZE (0 : UInt8)).length = MAPS_SIZE := List.length_replicate
  obtain ⟨t, h⟩ := run_holds [stackCall, codeCall] reset_holds
  have htext := mapsText_eq h hblock
  have hpositive : ∀ n ∈ List.replicate 5 48, 0 < n := fun n hn => by simp [List.eq_of_mem_replicate hn]
  obtain ⟨text, hlisted, -, hread⟩ := maps_read_back hnames hblock
  obtain rfl : twoRanges.text = text := Option.some.inj (htext.symm.trans hlisted)
  refine ⟨htext, by decide +kernel, ?_⟩
  exact (hread twoRanges _ rfl rfl hpositive (by decide +kernel)).trans (by decide +kernel)

end Text

end MapsListing

end SysvNt

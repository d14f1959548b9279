import SysvNt.ActionRuns
import SysvNt.ForkCounts

/-!
# Runs of forks, writes and releases

What a root should read is kept beside the machine as an address space: pages by their path. A fork
copies its parent's, and a write that goes through changes one. Each byte is stored through a writable
entry, which is the only one of its frame, so that no other page of any root changes.
-/

namespace SysvNt.ForkProbe

open ByteMemory RadixTree ActionRuns

/-- The pages of a process, those of control memory left out. -/
abbrev Space := Path (Fin 512) 4 → Option Page

def Space.empty : Space := fun _ => none

def Space.put (s : Space) (va : Word) (b : BitVec 8) : Space :=
  Function.update s (pathOf va) ((s (pathOf va)).map fun page => Function.update page (offset va) b)

def Space.write (s : Space) (va val : Word) : Space :=
  (List.range 8).foldl (fun s k => s.put (va + BitVec.ofNat 64 k) (byte val k)) s

def Space.populate (s : Space) (va tag : Word) : ℕ → Space
  | 0 => s
  | pages + 1 =>
    Space.populate (Function.update s (pathOf va) (some (named (fun _ => 0) (tag ^^^ va)))) (va + PAGE) tag pages

def expected (spaces : List Space) (went : Bool) : RootCall → List Space
  | .newRoot => spaces ++ [.empty]
  | .populate r va len tag => spaces.modify r fun s => s.populate va tag (pagesOf len)
  | .clone r => spaces ++ spaces[r]?.toList
  | .write r va val => if went then spaces.modify r fun s => s.write va val else spaces
  | .release _ => spaces

/-- The machine, and what its roots should read. -/
structure Forked where
  machine : Machine
  spaces : List Space

def Forked.next (s : Forked) (call : RootCall) : Option (Bool × Forked) :=
  (call.perform s.machine).map fun (went, m) => (went, ⟨m, expected s.spaces went call⟩)

/-- The addresses that a populate maps have no entry yet, and are different pages. -/
def Vacant (t : Table 4) (va : Word) (pages : ℕ) : Prop :=
  (∀ k < pages, lookup t (pathOf (va + BitVec.ofNat 64 (0x1000 * k))) = none) ∧
    ∀ j k, j < k → k < pages →
      pathOf (va + BitVec.ofNat 64 (0x1000 * j)) ≠ pathOf (va + BitVec.ofNat 64 (0x1000 * k))

/-- The calls are on live roots, at addresses not yet mapped, and leave fewer than 65536 roots live. -/
def Careful (s : Forked) : RootCall → Prop
  | .newRoot => liveRoots s.machine + 1 < 65536
  | .clone r => (s.machine.root r).isSome ∧ liveRoots s.machine + 1 < 65536
  | .populate r va len _ => ∃ t, s.machine.root r = some t ∧ Vacant t va (pagesOf len)
  | .write r _ _ | .release r => (s.machine.root r).isSome

/-- What a root reads at a page that is not of control memory is what it should. -/
def Reads (phys : Word → Page) (t : Table 4) (s : Space) : Prop :=
  ∀ p, (∀ e, lookup t p = some e → bit e PTE_NOCOW = false) → (lookup t p).map (fun e => phys (addr e)) = s p

/-- The counts are those of the entries, a writable entry is the only one of its frame, a fault on an
entry that is not writable is resolved, a write to what is mapped goes through, and every root reads
what it should. -/
structure Sound (s : Forked) : Prop where
  mapped : ∀ r t p e, s.machine.root r = some t → lookup t p = some e → bit e PTE_NOCOW = false →
    addr e ∈ s.machine.data
  counted : ∀ f ∈ s.machine.data, (s.machine.frames.refcount f).toNat = references s.machine f
  single : ∀ r t p e, s.machine.root r = some t → lookup t p = some e → bit e PTE_NOCOW = false →
    bit e PTE_RW = true → references s.machine (addr e) = 1
  resolves : ∀ r t va e, s.machine.root r = some t → lookup t (pathOf va) = some e → bit e PTE_RW = false →
    (allocFrame s.machine.frames).isSome → ∃ m t' e', s.machine.cowResolve r va = some (true, m) ∧
      m.root r = some t' ∧ lookup t' (pathOf va) = some e' ∧ bit e' PTE_RW = true
  writes : ∀ r t va val went m, s.machine.root r = some t →
    (∀ a ∈ bytesAt va, (lookup t (pathOf a)).isSome) →
    s.machine.guestWrite r va val TRIES = some (went, m) → went = true
  reads : ∀ r t, s.machine.root r = some t → ∃ c, s.spaces[r]? = some c ∧ Reads s.machine.frames.phys t c

structure Kept (s : Forked) : Prop where
  sharing : s.machine.Sharing
  length : s.spaces.length = s.machine.roots.length
  reads : ∀ r t c, s.machine.root r = some t → s.spaces[r]? = some c → Reads s.machine.frames.phys t c

variable {m m' : Machine} {r : ℕ} {t t' : Table 4} {spaces : List Space} {c : Space} {phys phys' : Word → Page}

section Reading

theorem Reads.congr (h : Reads phys t c) (hphys : ∀ p e, lookup t p = some e → bit e PTE_NOCOW = false →
    phys' (addr e) = phys (addr e)) : Reads phys' t c := by
  intro p hp
  rw [← h p hp]
  cases he : lookup t p with
  | none => rfl
  | some e =>
      rw [Option.map_some, Option.map_some, hphys p e he (hp e he)]

theorem Reads.alike (h : Reads phys t c) (hal : Alike t t') : Reads phys t' c := by
  intro p hp
  have hmap : ∀ s : Table 4, (lookup s p).map (fun e => phys (addr e)) =
      ((lookup s p).map key).map fun k => phys k.1 := by
    intro s
    rw [Option.map_map]
    rfl
  rw [hmap, ← hal p, ← hmap]
  apply h
  intro e he
  obtain ⟨d, hd, hkey⟩ := hal.symm.entry he
  rw [← (key_eq_iff.mp hkey).2.1]
  exact hp d hd

theorem Reads.insert (h : Reads phys t c) (p : Path (Fin 512) 4) (e : Word) :
    Reads phys (insert t p e) (Function.update c p (some (phys (addr e)))) := by
  intro q hq
  rw [lookup_insert] at hq ⊢
  by_cases hqp : q = p
  · rw [if_pos hqp, hqp, Function.update_self]
    rfl
  · rw [if_neg hqp] at hq ⊢
    rw [Function.update_of_ne hqp]
    exact h q hq

/-- One root gets another table, and its space with it. -/
theorem Kept.update (h : Kept ⟨m, spaces⟩) (ht : m.root r = some t) {fr : Frames} {data : List Word}
    (hs : (Machine.mk fr (m.roots.set r (some t')) data).Sharing)
    (hphys : ∀ f ∈ m.data, fr.phys f = m.frames.phys f) (g : Space → Space)
    (hg : ∀ c, Reads m.frames.phys t c → Reads fr.phys t' (g c)) :
    Kept ⟨⟨fr, m.roots.set r (some t'), data⟩, spaces.modify r g⟩ := by
  constructor
  · exact hs
  · dsimp only
    rw [List.length_modify, List.length_set]
    exact h.length
  · intro i s c hroot hspace
    dsimp only at hroot hspace ⊢
    rw [root_set ht] at hroot
    rw [List.getElem?_modify] at hspace
    obtain ⟨d, hd, rfl⟩ := Option.map_eq_some_iff.mp hspace
    by_cases hri : r = i
    · subst hri
      rw [if_pos rfl] at hroot
      cases hroot
      rw [if_pos rfl]
      exact hg d (h.reads r t d ht hd)
    · rw [if_neg hri] at hroot ⊢
      refine (h.reads i s d hroot hd).congr fun p e he hnocow => ?_
      exact hphys _ (h.sharing.entry i s p e hroot he hnocow).1

theorem Kept.add (h : Kept ⟨m, spaces⟩) {fr : Frames} (hs : (Machine.mk fr (m.roots ++ [some t]) m.data).Sharing)
    (hphys : ∀ f ∈ m.data, fr.phys f = m.frames.phys f) (ht : Reads fr.phys t c) :
    Kept ⟨⟨fr, m.roots ++ [some t], m.data⟩, spaces ++ [c]⟩ := by
  have hlength : spaces.length = m.roots.length := h.length
  constructor
  · exact hs
  · dsimp only
    rw [List.length_append, List.length_append, hlength]
    rfl
  · intro i s d hroot hspace
    dsimp only at hroot hspace ⊢
    rcases root_append hroot with hroot | ⟨hi, hroot⟩
    · have hlt : i < spaces.length := by
        rw [hlength]
        exact (List.getElem?_eq_some_iff.mp (root_eq_some.mp hroot)).1
      rw [List.getElem?_append_left hlt] at hspace
      refine (h.reads i s d hroot hspace).congr fun p e he hnocow => ?_
      exact hphys _ (h.sharing.entry i s p e hroot he hnocow).1
    · cases hroot
      rw [hi, ← hlength, List.getElem?_concat_length] at hspace
      cases hspace
      exact ht

end Reading

section Storing

variable {va val : Word} {b : BitVec 8}

theorem writable_entry {a : Word} (h : writable t a = true) :
    ∃ e, lookup t (pathOf a) = some e ∧ bit e PTE_RW = true := by
  rw [writable] at h
  cases he : lookup t (pathOf a) with
  | none =>
      rw [he] at h
      cases h
  | some e =>
      rw [he] at h
      exact ⟨e, rfl, h⟩

/-- A byte stored through a writable entry of a root changes what that root reads, there alone. -/
theorem store_byte (h : m.Sharing) (ht : m.root r = some t) (hw : writable t va = true) :
    ∃ phys, m.frames.storeAt t va b = { m.frames with phys := phys } ∧
      ∀ r' t' c, m.root r' = some t' → Reads m.frames.phys t' c →
        Reads phys t' (if r' = r then c.put va b else c) := by
  obtain ⟨e, he, hrw⟩ := writable_entry hw
  refine ⟨_, by rw [Frames.storeAt, he]; rfl, ?_⟩
  intro r' t' c ht' hc
  have hkept : ∀ q d, lookup t' q = some d → bit d PTE_NOCOW = false → (r' = r → q ≠ pathOf va) →
      Function.update m.frames.phys (addr e) (Function.update (m.frames.phys (addr e)) (offset va) b) (addr d) =
        m.frames.phys (addr d) := by
    intro q d hd hnocow hq
    apply Function.update_of_ne
    intro hsame
    cases hcontrol : bit e PTE_NOCOW with
    | true =>
        have hlow := (h.control r t _ e ht he hcontrol).1
        have hhigh := (h.data _ (h.entry r' t' q d ht' hd hnocow).1).1
        rw [hsame] at hhigh
        omega
    | false =>
        have hroot := h.owned _ r t _ e r' t' q d ht he ⟨hcontrol, rfl⟩ ht' hd ⟨hnocow, hsame⟩ hrw
        have hpath := h.home _ r t _ e r' t' q d ht he ⟨hcontrol, rfl⟩ ht' hd ⟨hnocow, hsame⟩
        exact hq hroot.symm hpath.symm
  intro q hq
  by_cases hr : r' = r ∧ q = pathOf va
  · obtain ⟨rfl, rfl⟩ := hr
    rw [ht] at ht'
    cases ht'
    have hold := hc _ hq
    rw [if_pos rfl, Space.put, Function.update_self, ← hold, he, Option.map_some, Option.map_some, Option.map_some,
      Function.update_self]
  · have hside : (if r' = r then c.put va b else c) q = c q := by
      split_ifs with hrr
      · exact Function.update_of_ne (fun hqp => hr ⟨hrr, hqp⟩) _ _
      · rfl
    rw [hside, ← hc q hq]
    cases hd : lookup t' q with
    | none => rfl
    | some d =>
        rw [Option.map_some, Option.map_some, hkept q d hd (hq d hd)]
        exact fun hrr hqp => hr ⟨hrr, hqp⟩

/-- The bytes of a store are stored one after the other. -/
theorem store_bytes (t : Table 4) (va val : Word) (ks : List ℕ)
    (hw : ∀ k ∈ ks, writable t (va + BitVec.ofNat 64 k) = true) (h : m.Sharing) (ht : m.root r = some t) :
    ∃ phys, ks.foldl (fun fr k => fr.storeAt t (va + BitVec.ofNat 64 k) (byte val k)) m.frames =
        { m.frames with phys := phys } ∧
      ∀ r' t' c, m.root r' = some t' → Reads m.frames.phys t' c →
        Reads phys t' (if r' = r then
          ks.foldl (fun s k => s.put (va + BitVec.ofNat 64 k) (byte val k)) c else c) := by
  induction ks generalizing m with
  | nil =>
      refine ⟨m.frames.phys, rfl, fun r' t' c _ hc => ?_⟩
      rw [List.foldl_nil, ite_self]
      exact hc
  | cons k ks ih =>
      obtain ⟨phys, hstore, hreads⟩ := store_byte (b := byte val k) h ht (hw k List.mem_cons_self)
      obtain ⟨phys', hrest, hreads'⟩ := ih (m := ⟨{ m.frames with phys := phys }, m.roots, m.data⟩)
        (fun j hj => hw j (List.mem_cons_of_mem k hj)) (h.phys phys) ht
      refine ⟨phys', ?_, fun r' t' c ht' hc => ?_⟩
      · rw [List.foldl_cons, hstore]
        exact hrest
      · have hnext := hreads' r' t' _ ht' (hreads r' t' c ht' hc)
        by_cases hr : r' = r
        · rw [if_pos hr, if_pos hr] at hnext
          rw [if_pos hr, List.foldl_cons]
          exact hnext
        · rw [if_neg hr, if_neg hr] at hnext
          rw [if_neg hr]
          exact hnext

theorem Kept.store (h : Kept ⟨m, spaces⟩) (ht : m.root r = some t) (hw : ∀ a ∈ bytesAt va, writable t a = true) :
    Kept ⟨{ m with frames := m.frames.storeWord t va val }, spaces.modify r fun s => s.write va val⟩ := by
  have hbytes : ∀ k ∈ List.range 8, writable t (va + BitVec.ofNat 64 k) = true :=
    fun k hk => hw _ (List.mem_map_of_mem hk)
  obtain ⟨phys, hstore, hreads⟩ := store_bytes t va val (List.range 8) hbytes h.sharing ht
  rw [Frames.storeWord, hstore]
  constructor
  · exact h.sharing.phys phys
  · dsimp only
    rw [List.length_modify]
    exact h.length
  · intro i s c hroot hspace
    dsimp only at hroot hspace ⊢
    rw [List.getElem?_modify] at hspace
    obtain ⟨d, hd, rfl⟩ := Option.map_eq_some_iff.mp hspace
    have hnext := hreads i s d hroot (h.reads i s d hroot hd)
    by_cases hri : r = i
    · rw [if_pos hri.symm] at hnext
      rw [if_pos hri]
      exact hnext
    · rw [if_neg (Ne.symm hri)] at hnext
      rw [if_neg hri]
      exact hnext

/-- A fault that is resolved changes nothing that is read. -/
theorem Kept.resolved (h : Kept ⟨m, spaces⟩) (ht : m.root r = some t) {e : Word}
    (he : lookup t (pathOf va) = some e) (hnocow : bit e PTE_NOCOW = false) (hm : Resolved m m' r t va e) :
    Kept ⟨m', spaces⟩ := by
  obtain ⟨d, fr, data, rfl, -, -, hd⟩ := hm.machine
  have hphys : ∀ f ∈ m.data, fr.phys f = m.frames.phys f := fun f hf => hm.phys f (h.sharing.data f hf).2
  have hkept := h.update ht hm.sharing hphys id ?_
  · rw [List.modify_id] at hkept
    exact hkept
  · intro c hc
    have hupdate : Function.update c (pathOf va) (some (fr.phys (addr d))) = c := by
      rw [hd, Function.update_eq_self_iff, ← hc (pathOf va), he, Option.map_some]
      intro e' he'
      rw [he] at he'
      cases he'
      exact hnocow
    have hnext : Reads fr.phys t c :=
      hc.congr fun p a ha hcow => hphys _ (h.sharing.entry r t p a ht ha hcow).1
    have hinsert := hnext.insert (pathOf va) d
    rw [hupdate] at hinsert
    exact hinsert

theorem Machine.Sharing.cow_of_readonly (h : m.Sharing) (ht : m.root r = some t) {p : Path (Fin 512) 4} {e : Word}
    (he : lookup t p = some e) (hro : bit e PTE_RW = false) : bit e PTE_NOCOW = false := by
  cases hnocow : bit e PTE_NOCOW with
  | false => rfl
  | true =>
      have hrw := (h.control r t p e ht he hnocow).2
      rw [hro] at hrw
      cases hrw

/-- What a turn of a write does: the store, or nothing, or a fault that is resolved. -/
theorem guestWrite_cases (h : m.Sharing) (ht : m.root r = some t) {tries : ℕ} {went : Bool}
    (hm : m.guestWrite r va val (tries + 1) = some (went, m')) :
    ((∀ a ∈ bytesAt va, writable t a = true) ∧ went = true ∧
        m' = { m with frames := m.frames.storeWord t va val }) ∨
      (∃ a ∈ bytesAt va, lookup t (pathOf a) = none ∧ went = false ∧ m' = m) ∨
      ∃ a ∈ bytesAt va, ∃ e m₁, lookup t (pathOf a) = some e ∧ bit e PTE_RW = false ∧ Resolved m m₁ r t a e ∧
        m₁.guestWrite r va val tries = some (went, m') := by
  rw [Machine.guestWrite, ht] at hm
  dsimp only at hm
  cases hfind : (bytesAt va).find? fun a => !writable t a with
  | none =>
      rw [hfind] at hm
      cases hm
      rw [List.find?_eq_none] at hfind
      exact .inl ⟨fun a ha => by simpa using hfind a ha, rfl, rfl⟩
  | some a =>
      have hmem := List.mem_of_find?_eq_some hfind
      have hro := List.find?_some hfind
      rw [hfind] at hm
      rw [Option.bind_eq_bind, Option.bind_eq_some_iff] at hm
      obtain ⟨⟨resolved, m₁⟩, hcow, hm⟩ := hm
      right
      cases he : lookup t (pathOf a) with
      | none =>
          rw [Machine.cowResolve, ht] at hcow
          simp only [he] at hcow
          cases hcow
          cases hm
          exact .inl ⟨a, hmem, he, rfl, rfl⟩
      | some e =>
          have hro : bit e PTE_RW = false := by
            rw [writable, he] at hro
            simpa using hro
          obtain ⟨rfl, hres⟩ := cowResolve_some h ht he (h.cow_of_readonly ht he hro) hro hcow
          exact .inr ⟨a, hmem, e, m₁, he, hro, hres, hm⟩

theorem Resolved.root {e : Word} (h : Resolved m m' r t va e) (ht : m.root r = some t) :
    ∃ d, m'.root r = some (insert t (pathOf va) d) ∧ bit d PTE_RW = true := by
  obtain ⟨d, fr, data, rfl, hrw, -⟩ := h.machine
  refine ⟨d, ?_, hrw⟩
  rw [root_set ht, if_pos rfl]

theorem Kept.guestWrite (h : Kept ⟨m, spaces⟩) (ht : m.root r = some t) {tries : ℕ} {went : Bool}
    (hm : m.guestWrite r va val tries = some (went, m')) :
    Kept ⟨m', if went then spaces.modify r fun s => s.write va val else spaces⟩ := by
  induction tries generalizing m t with
  | zero =>
      cases hm
      exact h
  | succ tries ih =>
      rcases guestWrite_cases h.sharing ht hm with ⟨hw, rfl, rfl⟩ | ⟨a, -, -, rfl, rfl⟩ | ⟨a, -, e, m₁, he, hro, hres, hm⟩
      · exact h.store ht hw
      · exact h
      · obtain ⟨d, hroot, -⟩ := hres.root ht
        exact ih (h.resolved ht he (h.sharing.cow_of_readonly ht he hro) hres) hroot hm

end Storing

section Calls

variable {va tag : Word}

theorem Vacant.head {pages : ℕ} (h : Vacant t va (pages + 1)) : lookup t (pathOf va) = none := by
  have hhead := h.1 0 (Nat.succ_pos pages)
  have hva : va + BitVec.ofNat 64 (0x1000 * 0) = va := BitVec.add_zero va
  rwa [hva] at hhead

theorem page_succ (va : Word) (k : ℕ) :
    va + PAGE + BitVec.ofNat 64 (0x1000 * k) = va + BitVec.ofNat 64 (0x1000 * (k + 1)) := by
  have hsum : BitVec.ofNat 64 (0x1000 * (k + 1)) = PAGE + BitVec.ofNat 64 (0x1000 * k) := by
    rw [Nat.mul_add, Nat.add_comm, BitVec.ofNat_add]
    rfl
  rw [hsum, BitVec.add_assoc]

theorem Vacant.tail {pages : ℕ} (h : Vacant t va (pages + 1)) (e : Word) :
    Vacant (insert t (pathOf va) e) (va + PAGE) pages := by
  have hva : va + BitVec.ofNat 64 (0x1000 * 0) = va := BitVec.add_zero va
  constructor
  · intro k hk
    have hne := h.2 0 (k + 1) (Nat.succ_pos k) (Nat.succ_lt_succ hk)
    rw [hva] at hne
    rw [page_succ, lookup_insert, if_neg hne.symm]
    exact h.1 (k + 1) (Nat.succ_lt_succ hk)
  · intro j k hjk hk
    rw [page_succ, page_succ]
    exact h.2 (j + 1) (k + 1) (Nat.succ_lt_succ hjk) (Nat.succ_lt_succ hk)

theorem Kept.populate (h : Kept ⟨m, spaces⟩) (ht : m.root r = some t) {pages : ℕ} (hv : Vacant t va pages)
    (hm : m.populate r va tag pages = some m') :
    Kept ⟨m', spaces.modify r fun s => s.populate va tag pages⟩ := by
  induction pages generalizing m t va spaces with
  | zero =>
      cases hm
      have hid : (fun s : Space => s.populate va tag 0) = id := rfl
      rw [hid, List.modify_id]
      exact h
  | succ pages ih =>
      rw [Machine.populate, ht] at hm
      dsimp only at hm
      rw [Option.bind_eq_bind, Option.bind_eq_some_iff] at hm
      obtain ⟨m₁, hpage, hm⟩ := hm
      obtain ⟨f, fr, hp⟩ := populatePage_some h.sharing hv.head hpage
      have hsharing := hp.sharing h.sharing ht
      obtain ⟨haddr, -, -⟩ := fresh_entry hp.frame
      have hphys : ∀ g ∈ m.data, fr.phys g = m.frames.phys g := fun g hg => hp.phys g (h.sharing.data g hg).2
      have hmachine := hp.machine
      subst hmachine
      have hkept := h.update ht hsharing hphys
        (fun c => Function.update c (pathOf va) (some (named (fun _ => 0) (tag ^^^ va)))) ?_
      · have hroot : (Machine.mk fr (m.roots.set r (some (insert t (pathOf va)
            (f ||| PTE_P ||| PTE_RW ||| PTE_US)))) (f :: m.data)).root r =
            some (insert t (pathOf va) (f ||| PTE_P ||| PTE_RW ||| PTE_US)) := by
          rw [root_set ht, if_pos rfl]
        have hnext := ih hkept hroot (hv.tail _) hm
        rw [List.modify_modify_eq] at hnext
        exact hnext
      · intro c hc
        have hold : Reads fr.phys t c :=
          hc.congr fun p a ha hcow => hphys _ (h.sharing.entry r t p a ht ha hcow).1
        have hinsert := hold.insert (pathOf va) (f ||| PTE_P ||| PTE_RW ||| PTE_US)
        rw [haddr, hp.page] at hinsert
        exact hinsert

theorem Kept.create (h : Kept ⟨m, spaces⟩) (hfew : liveRoots m + 1 < 65536) (hm : m.create = some m') :
    Kept ⟨m', spaces ++ [.empty]⟩ := by
  have hsharing := h.sharing.create hfew hm
  rw [Machine.create, Option.bind_eq_bind, Option.bind_eq_some_iff] at hm
  obtain ⟨⟨t, fr⟩, hnew, hm⟩ := hm
  cases hm
  obtain ⟨hcontrols, hgrows⟩ := newRoot_some h.sharing.good hnew
  refine h.add hsharing (fun f hf => hgrows.phys f (h.sharing.data f hf).2) ?_
  intro p hp
  cases he : lookup t p with
  | none => rfl
  | some e =>
      have hnocow := hp e he
      rw [(hcontrols p e he).nocow] at hnocow
      cases hnocow

theorem Kept.clone (h : Kept ⟨m, spaces⟩) (ht : m.root r = some t) (hfew : liveRoots m + 1 < 65536)
    (hm : m.clone r = some m') : Kept ⟨m', spaces ++ spaces[r]?.toList⟩ := by
  have hsharing := h.sharing.clone hfew hm
  rw [Machine.clone, ht] at hm
  dsimp only at hm
  rw [Option.bind_eq_bind, Option.bind_eq_some_iff] at hm
  obtain ⟨⟨d, s, fr⟩, hclone, hm⟩ := hm
  cases hm
  obtain ⟨rfl, rfl, hgrows⟩ := cloneLevel_some h.sharing.good hclone
  have hlt : r < spaces.length := by
    rw [show spaces.length = m.roots.length from h.length]
    exact (List.getElem?_eq_some_iff.mp (root_eq_some.mp ht)).1
  have hspace : spaces[r]? = some spaces[r] := List.getElem?_eq_getElem hlt
  have hreads := h.reads r t _ ht hspace
  have hshared := h.update ht (h.sharing.share ht) (fun _ _ => rfl) id fun c hc => hc.alike (alike_share t)
  rw [List.modify_id] at hshared
  rw [hspace]
  refine hshared.add hsharing (fun f hf => hgrows.phys f (h.sharing.data f hf).2) ?_
  refine (hreads.alike (alike_share t)).congr fun p e he hnocow => ?_
  have hroot : (Machine.mk m.frames (m.roots.set r (some (map share t))) m.data).root r = some (map share t) := by
    rw [root_set ht, if_pos rfl]
  have hmem := (hshared.sharing.entry r _ p e hroot he hnocow).1
  exact hgrows.phys _ (h.sharing.data _ hmem).2

theorem Kept.release (h : Kept ⟨m, spaces⟩) (r : ℕ) : Kept ⟨m.release r, spaces⟩ := by
  have hsharing := h.sharing.release r
  rw [Machine.release] at hsharing ⊢
  cases ht : m.root r with
  | none => exact h
  | some t =>
      rw [ht] at hsharing
      refine ⟨hsharing, ?_, fun i s c hroot hspace => ?_⟩
      · dsimp only
        rw [List.length_set]
        exact h.length
      · dsimp only at hroot hspace ⊢
        rw [root_set ht] at hroot
        split_ifs at hroot
        exact h.reads i s c hroot hspace

/-- A careful call keeps the invariant. -/
theorem Kept.next {s s' : Forked} (h : Kept s) {call : RootCall} (hc : Careful s call) {went : Bool}
    (hn : s.next call = some (went, s')) : Kept s' := by
  rw [Forked.next] at hn
  obtain ⟨⟨went, m⟩, hperform, hn⟩ := Option.map_eq_some_iff.mp hn
  cases hn
  cases call with
  | newRoot =>
      rw [RootCall.perform, Option.map_eq_some_iff] at hperform
      obtain ⟨m, hm, hperform⟩ := hperform
      cases hperform
      exact h.create hc hm
  | populate r va len tag =>
      rw [RootCall.perform, Option.map_eq_some_iff] at hperform
      obtain ⟨m, hm, hperform⟩ := hperform
      cases hperform
      obtain ⟨t, ht, hv⟩ := hc
      exact h.populate ht hv hm
  | clone r =>
      rw [RootCall.perform, Option.map_eq_some_iff] at hperform
      obtain ⟨m, hm, hperform⟩ := hperform
      cases hperform
      obtain ⟨t, ht⟩ := Option.isSome_iff_exists.mp hc.1
      exact h.clone ht hc.2 hm
  | write r va val =>
      obtain ⟨t, ht⟩ := Option.isSome_iff_exists.mp hc
      exact h.guestWrite ht hperform
  | release r =>
      cases hperform
      exact h.release r

end Calls

section Soundness

variable {va val : Word}

/-- The bytes of a word lie in the page of the first or of the last of them. -/
theorem pathOf_byte {k : ℕ} (hk : k < 8) (va : Word) :
    pathOf (va + BitVec.ofNat 64 k) = pathOf va ∨ pathOf (va + BitVec.ofNat 64 k) = pathOf (va + 7) := by
  have hpath : ∀ {a b : Word}, a.toNat / 4096 = b.toNat / 4096 → pathOf a = pathOf b := by
    intro a b hab
    have hindex : ∀ level, index a level = index b level := by
      intro level
      rw [index, index, Fin.mk.injEq, BitVec.toNat_ushiftRight, BitVec.toNat_ushiftRight, Nat.shiftRight_add,
        Nat.shiftRight_add, Nat.shiftRight_eq_div_pow a.toNat, Nat.shiftRight_eq_div_pow b.toNat]
      exact congrArg (fun n => (n >>> (9 * level)) % 512) hab
    rw [pathOf, pathOf, hindex, hindex, hindex, hindex]
  have hlt := va.isLt
  have hk' : (va + BitVec.ofNat 64 k).toNat = (va.toNat + k) % 2 ^ 64 := by
    rw [BitVec.toNat_add, BitVec.toNat_ofNat]
    omega
  have hlast : (va + 7).toNat = (va.toNat + 7) % 2 ^ 64 := by
    rw [BitVec.toNat_add]
    rfl
  by_cases hpage : va.toNat % 4096 + k < 4096
  · left
    apply hpath
    rw [hk']
    omega
  · right
    apply hpath
    rw [hk', hlast]
    omega

/-- Each try makes another page of a write writable. -/
theorem guestWrite_went (h : m.Sharing) (ht : m.root r = some t) {tries : ℕ} {went : Bool}
    (hmapped : ∀ a ∈ bytesAt va, (lookup t (pathOf a)).isSome) (ps : List (Path (Fin 512) 4))
    (hps : ∀ a ∈ bytesAt va, writable t a = false → pathOf a ∈ ps) (htries : ps.length < tries)
    (hm : m.guestWrite r va val tries = some (went, m')) : went = true := by
  induction tries generalizing m t ps with
  | zero => exact absurd htries (Nat.not_lt_zero _)
  | succ tries ih =>
      rcases guestWrite_cases h ht hm with ⟨-, rfl, -⟩ | ⟨a, ha, hnone, -, -⟩ | ⟨a, ha, e, m₁, he, hro, hres, hm⟩
      · rfl
      · have hsome := hmapped a ha
        rw [hnone] at hsome
        cases hsome
      · obtain ⟨d, hroot, hrw⟩ := hres.root ht
        have hin : pathOf a ∈ ps := by
          apply hps a ha
          rw [writable, he]
          exact hro
        refine ih hres.sharing hroot ?_ (ps.erase (pathOf a)) ?_ ?_ hm
        · intro b hb
          rw [lookup_insert]
          split_ifs
          · rfl
          · exact hmapped b hb
        · intro b hb hbro
          rw [writable, lookup_insert] at hbro
          split_ifs at hbro with hpath
          · rw [Option.any_some, hrw] at hbro
            cases hbro
          · exact (List.mem_erase_of_ne hpath).mpr (hps b hb hbro)
        · have hpos := List.length_pos_of_mem hin
          rw [List.length_erase_of_mem hin]
          omega

theorem cowResolve_isSome (halloc : (allocFrame m.frames).isSome) (r : ℕ) (va : Word) :
    (m.cowResolve r va).isSome := by
  obtain ⟨⟨f, fr⟩, halloc⟩ := Option.isSome_iff_exists.mp halloc
  rw [Machine.cowResolve]
  cases m.root r with
  | none => rfl
  | some t =>
      dsimp only
      cases lookup t (pathOf va) with
      | none => rfl
      | some e =>
          dsimp only
          rw [halloc]
          split_ifs <;> rfl

theorem Kept.sound {s : Forked} (h : Kept s) : Sound s := by
  constructor
  · intro r t p e ht he hnocow
    exact (h.sharing.entry r t p e ht he hnocow).1
  · exact fun f hf => h.sharing.toNat_refcount hf
  · intro r t p e ht he hnocow hrw
    exact h.sharing.references_writable ht he ⟨hnocow, rfl⟩ hrw
  · intro r t va e ht he hro halloc
    obtain ⟨⟨resolved, m⟩, hcow⟩ := Option.isSome_iff_exists.mp (cowResolve_isSome halloc r va)
    obtain ⟨rfl, hres⟩ := cowResolve_some h.sharing ht he (h.sharing.cow_of_readonly ht he hro) hro hcow
    obtain ⟨d, hroot, hrw⟩ := hres.root ht
    refine ⟨m, _, d, hcow, hroot, ?_, hrw⟩
    rw [lookup_insert, if_pos rfl]
  · intro r t va val went m ht hmapped hm
    refine guestWrite_went h.sharing ht hmapped [pathOf va, pathOf (va + 7)] ?_ (by decide : 2 < TRIES) hm
    intro a ha _
    obtain ⟨k, hk, rfl⟩ := List.mem_map.mp ha
    rcases pathOf_byte (List.mem_range.mp hk) va with hpath | hpath <;> rw [hpath] <;> simp
  · intro r t ht
    have hlt : r < s.spaces.length := by
      rw [h.length]
      exact (List.getElem?_eq_some_iff.mp (root_eq_some.mp ht)).1
    have hspace : s.spaces[r]? = some s.spaces[r] := List.getElem?_eq_getElem hlt
    exact ⟨_, hspace, h.reads r t _ ht hspace⟩

theorem kept_initial (control : Word → Page) {size : Word} (hbase : FRAME_BASE.toNat ≤ size.toNat)
    (hsize : size.toNat ≤ 2 ^ 52) : Kept ⟨.initial control size, []⟩ := by
  have hroot : ∀ r t, (Machine.initial control size).root r ≠ some t := by
    intro r t hr
    rw [root_eq_some, Machine.initial] at hr
    cases hr
  have hgood : (Machine.initial control size).frames.Good :=
    ⟨hsize, hbase, (by decide : FRAME_BASE.toNat % 0x1000 = 0), le_rfl⟩
  refine ⟨⟨hgood, (by decide : 0 < 65536), ?_, ?_, nofun, ?_, ?_, nofun⟩, rfl, ?_⟩
  · exact fun r t p e ht => absurd ht (hroot r t)
  · exact fun r t p e ht => absurd ht (hroot r t)
  · exact fun f r t p e r' t' p' e' ht => absurd ht (hroot r t)
  · exact fun f r t p e r' t' p' e' ht => absurd ht (hroot r t)
  · exact fun r t c ht => absurd ht (hroot r t)

/-- Every state that careful calls reach is sound. -/
theorem forks_sound (control : Word → Page) {size : Word} (hbase : FRAME_BASE.toNat ≤ size.toNat)
    (hsize : size.toNat ≤ 2 ^ 52) (calls : List RootCall) {h : List (RootCall × Bool)} {s : Forked}
    (hc : EachMeets Forked.next Careful ⟨.initial control size, []⟩ calls)
    (hr : run Forked.next ⟨.initial control size, []⟩ calls = some (h, s)) : Sound s := by
  have hkept : Kept s := run_history_of (P := fun _ s => Kept s)
    (fun _ s call went s' hs hc hn => hs.next hc hn) calls [] (kept_initial control hbase hsize) hc hr
  exact hkept.sound

end Soundness

section Room

/-- So many frames are left, all of which an entry can name. -/
structure Frames.Room (fr : Frames) (n : ℕ) : Prop where
  next_le : fr.next.toNat + 0x1000 * n ≤ fr.size.toNat
  size_le : fr.size.toNat ≤ 2 ^ 52

variable {fr : Frames} {n : ℕ} {va : Word}

theorem allocFrame_room (h : fr.Room (n + 1)) : ∃ f fr', allocFrame fr = some (f, fr') ∧ fr'.Room n := by
  obtain ⟨hnext, hsize⟩ := h
  have hpage : PAGE.toNat = 0x1000 := rfl
  have hsum : (fr.next + PAGE).toNat = fr.next.toNat + 0x1000 := by
    rw [BitVec.toNat_add, hpage]
    omega
  rw [allocFrame, if_neg]
  · refine ⟨_, _, rfl, ?_, hsize⟩
    dsimp only
    omega
  · rw [BitVec.lt_def]
    omega

theorem Frames.Room.le {k : ℕ} (h : fr.Room n) (hk : k ≤ n) : fr.Room k := by
  have hnext := h.next_le
  exact ⟨by omega, h.size_le⟩

theorem setPte_room {l : ℕ} (t : Table l) (p : Path (Fin 512) l) (e : Word) (h : fr.Room (n + l)) :
    ∃ fr', setPte t p e fr = some (insert t p e, fr') ∧ fr'.Room n := by
  induction p generalizing fr n with
  | nil =>
      refine ⟨fr, ?_, h⟩
      cases t <;> rfl
  | cons i p ih =>
      cases t with
      | absent =>
          obtain ⟨f, fr₁, halloc, h₁⟩ := allocFrame_room h
          obtain ⟨fr₂, hset, h₂⟩ := ih .absent h₁
          refine ⟨fr₂, ?_, h₂⟩
          rw [setPte, halloc]
          simp only [Option.bind_eq_bind, Option.bind_some, hset]
          rfl
      | node t =>
          obtain ⟨fr₂, hset, h₂⟩ := ih (t i) (h.le (Nat.le_succ _))
          refine ⟨fr₂, ?_, h₂⟩
          rw [setPte, hset]
          rfl

/-- The pages of a range are mapped, and nothing else is. -/
theorem mapRange_room (flags : Word) (pages : ℕ) (t : Table 4) (va gpa : Word) (h : fr.Room (n + 4 * pages)) :
    ∃ t' fr', mapRange t va gpa flags pages fr = some (t', fr') ∧ fr'.Room n ∧
      ∀ p, lookup t p = none → (∀ k < pages, p ≠ pathOf (va + BitVec.ofNat 64 (0x1000 * k))) →
        lookup t' p = none := by
  induction pages generalizing t va gpa fr with
  | zero => exact ⟨t, fr, rfl, h, fun p hp _ => hp⟩
  | succ pages ih =>
      obtain ⟨fr₁, hset, h₁⟩ := setPte_room (n := n + 4 * pages) t (pathOf va) (gpa ||| flags) h
      obtain ⟨t', fr₂, hmap, h₂, hlookup⟩ := ih (insert t (pathOf va) (gpa ||| flags)) (va + PAGE) (gpa + PAGE) h₁
      refine ⟨t', fr₂, ?_, h₂, fun p hp hother => ?_⟩
      · rw [mapRange, hset]
        exact hmap
      · apply hlookup p
        · have hhead := hother 0 (Nat.succ_pos pages)
          have hva : va + BitVec.ofNat 64 (0x1000 * 0) = va := BitVec.add_zero va
          rw [hva] at hhead
          rw [lookup_insert, if_neg hhead]
          exact hp
        · intro k hk
          rw [page_succ]
          exact hother (k + 1) (Nat.succ_lt_succ hk)

def tables : ℕ → ℕ
  | 0 => 0
  | l + 1 => 1 + 512 * tables l

theorem cloneEach_room {l k : ℕ} {clone : Fin 512 → Frames → Option (Table l × Table l × Frames)}
    (hclone : ∀ i (fr : Frames) n, fr.Room (n + k) → ∃ d s fr', clone i fr = some (d, s, fr') ∧ fr'.Room n)
    (is : List (Fin 512)) (h : fr.Room (n + is.length * k)) :
    ∃ ds ss fr', cloneEach clone is fr = some (ds, ss, fr') ∧ fr'.Room n := by
  induction is generalizing fr with
  | nil =>
      rw [List.length_nil, Nat.zero_mul] at h
      exact ⟨_, _, fr, rfl, h⟩
  | cons i is ih =>
      rw [List.length_cons, Nat.succ_mul, ← Nat.add_assoc] at h
      obtain ⟨d, s, fr₁, hi, h₁⟩ := hclone i fr _ h
      obtain ⟨ds, ss, fr₂, his, h₂⟩ := ih h₁
      refine ⟨fun j => if j = i then d else ds j, fun j => if j = i then s else ss j, fr₂, ?_, h₂⟩
      rw [cloneEach, hi]
      simp only [Option.bind_eq_bind, Option.bind_some, his]

theorem cloneLevel_room {l : ℕ} (t : Table l) (h : fr.Room (n + tables l)) :
    ∃ d s fr', cloneLevel t fr = some (d, s, fr') ∧ fr'.Room n := by
  induction t generalizing fr n with
  | absent => exact ⟨.absent, .absent, fr, rfl, h.le (Nat.le_add_right n _)⟩
  | value e =>
      rw [cloneLevel]
      split_ifs
      · exact ⟨_, _, _, rfl, h⟩
      · exact ⟨_, _, _, rfl, h.next_le, h.size_le⟩
  | @node l t ih =>
      have hroom : fr.Room (n + (List.finRange 512).length * tables l + 1) := by
        rw [List.length_finRange]
        rw [tables] at h
        exact h.le (by omega)
      obtain ⟨f, fr₁, halloc, h₁⟩ := allocFrame_room hroom
      have hclone : ∀ i (fr : Frames) n, fr.Room (n + tables l) →
          ∃ d s fr', (fun i fr => cloneLevel (t i) fr) i fr = some (d, s, fr') ∧ fr'.Room n :=
        fun i fr n h => ih i h
      obtain ⟨ds, ss, fr₂, heach, h₂⟩ := cloneEach_room hclone (List.finRange 512) h₁
      refine ⟨.node ds, .node ss, fr₂, ?_, h₂⟩
      rw [cloneLevel, halloc]
      simp only [Option.bind_eq_bind, Option.bind_some, heach]

theorem create_room (h : m.frames.Room (n + 4097)) : ∃ t fr',
    m.create = some ⟨fr', m.roots ++ [some t], m.data⟩ ∧ fr'.Room n ∧ lookup t (pathOf CONTROL) = none := by
  obtain ⟨f, fr₁, halloc, h₁⟩ := allocFrame_room (n := n + 4 * 1024) h
  obtain ⟨t, fr₂, hmap, h₂, hlookup⟩ := mapRange_room (PTE_P ||| PTE_RW ||| PTE_NOCOW) 1024
    (.node fun _ => .absent) 0 0 h₁
  refine ⟨t, fr₂, ?_, h₂, hlookup _ ?_ ?_⟩
  · have hpages : (CONTROL / PAGE).toNat = 1024 := by decide
    rw [Machine.create, newRoot, halloc]
    simp only [Option.bind_eq_bind, Option.bind_some, hpages, hmap]
  · rw [pathOf, lookup_node, lookup_absent]
  · intro k hk hpath
    rw [pathOf, pathOf] at hpath
    simp only [Path.cons.injEq] at hpath
    obtain ⟨-, -, hindex, -⟩ := hpath
    have hzero : 0 + BitVec.ofNat 64 (0x1000 * k) = BitVec.ofNat 64 (0x1000 * k) := BitVec.zero_add _
    have hleft : (index CONTROL 1).val = 2 := by decide
    have hright : (index (BitVec.ofNat 64 (0x1000 * k)) 1).val < 2 := by
      change (BitVec.ofNat 64 (0x1000 * k) >>> (21 : ℕ)).toNat % 512 < 2
      rw [BitVec.toNat_ushiftRight, BitVec.toNat_ofNat, Nat.shiftRight_eq_div_pow]
      omega
    rw [← hzero, ← hindex] at hright
    omega

theorem populatePage_room {tag : Word} (h : m.frames.Room (n + 5)) : ∃ t' f fr',
    m.populatePage r t va tag = some ⟨fr', m.roots.set r (some t'), f :: m.data⟩ ∧ fr'.Room n := by
  obtain ⟨f, fr₁, halloc, h₁⟩ := allocFrame_room (n := n + 4) h
  have hroom : Frames.Room { fr₁ with phys := Function.update fr₁.phys f (named (fr₁.phys f) (tag ^^^ va)) } (n + 4) :=
    ⟨h₁.next_le, h₁.size_le⟩
  obtain ⟨fr₂, hset, h₂⟩ := setPte_room t (pathOf va) (f ||| PTE_P ||| PTE_RW ||| PTE_US) hroom
  refine ⟨insert t (pathOf va) (f ||| PTE_P ||| PTE_RW ||| PTE_US), f, fr₂, ?_, h₂⟩
  rw [Machine.populatePage, ForkProbe.populatePage, halloc]
  simp only [Option.bind_eq_bind, Option.bind_some, hset]

theorem clone_room (ht : m.root r = some t) (h : m.frames.Room (n + tables 4)) : ∃ d s fr',
    m.clone r = some ⟨fr', m.roots.set r (some s) ++ [some d], m.data⟩ ∧ fr'.Room n := by
  obtain ⟨d, s, fr', hclone, h'⟩ := cloneLevel_room t h
  refine ⟨d, s, fr', ?_, h'⟩
  rw [Machine.clone, ht]
  simp only [Option.bind_eq_bind, Option.bind_some, hclone]

theorem cowResolve_room (h : m.frames.Room (n + 1)) (r : ℕ) (va : Word) :
    ∃ b m', m.cowResolve r va = some (b, m') ∧ m'.frames.Room n := by
  obtain ⟨f, fr', halloc, h'⟩ := allocFrame_room h
  have hless := h.le (Nat.le_succ n)
  rw [Machine.cowResolve]
  cases m.root r with
  | none => exact ⟨_, m, rfl, hless⟩
  | some t =>
      dsimp only
      cases lookup t (pathOf va) with
      | none => exact ⟨_, m, rfl, hless⟩
      | some e =>
          dsimp only
          rw [halloc]
          split_ifs
          · exact ⟨_, _, rfl, h'.next_le, h'.size_le⟩
          · exact ⟨_, _, rfl, hless⟩
          · exact ⟨_, m, rfl, hless⟩

theorem guestWrite_room {tries : ℕ} (h : m.frames.Room tries) (r : ℕ) (va val : Word) :
    ∃ went m', m.guestWrite r va val tries = some (went, m') := by
  induction tries generalizing m with
  | zero => exact ⟨_, _, rfl⟩
  | succ tries ih =>
      rw [Machine.guestWrite]
      cases m.root r with
      | none => exact ⟨_, _, rfl⟩
      | some t =>
          dsimp only
          cases (bytesAt va).find? fun a => !writable t a with
          | none => exact ⟨_, _, rfl⟩
          | some a =>
              obtain ⟨b, m', hcow, h'⟩ := cowResolve_room h r a
              dsimp only
              rw [hcow]
              cases b with
              | true => exact ih h'
              | false => exact ⟨_, _, rfl⟩

end Room

/-- A parent with one page, a fork of it, the end of the parent, and a write by the child. -/
theorem fork_then_write_sound : ∃ h s, run Forked.next ⟨.initial (fun _ _ => 0) 0x10000000000000, []⟩
    [.newRoot, .populate 0 CONTROL PAGE 7, .clone 0, .release 0, .write 1 CONTROL 5] = some (h, s) ∧ Sound s := by
  have hroom : (Machine.initial (fun _ _ => 0) 0x10000000000000).frames.Room (5 + tables 4 + 5 + 4097) := by
    have htables : tables 4 = 134480385 := by decide
    rw [htables]
    exact ⟨by decide, by decide⟩
  obtain ⟨t₁, fr₁, h₁, hroom₁, hvacant⟩ := create_room hroom
  let m₁ : Machine := ⟨fr₁, [some t₁], []⟩
  obtain ⟨t₂, f, fr₂, h₂, hroom₂⟩ : ∃ t' f fr', m₁.populatePage 0 t₁ CONTROL 7 = some ⟨fr', [some t'], [f]⟩ ∧
      fr'.Room (5 + tables 4) := populatePage_room hroom₁
  let m₂ : Machine := ⟨fr₂, [some t₂], [f]⟩
  obtain ⟨s, d, fr₃, h₃, hroom₃⟩ : ∃ s d fr', m₂.clone 0 = some ⟨fr', [some s, some d], [f]⟩ ∧ fr'.Room 5 := by
    obtain ⟨d, s, fr', hclone, h'⟩ := clone_room (m := m₂) (r := 0) rfl hroom₂
    exact ⟨s, d, fr', hclone, h'⟩
  let m₃ : Machine := ⟨fr₃, [some s, some d], [f]⟩
  have hroom₄ : (m₃.release 0).frames.Room TRIES := ⟨hroom₃.next_le, hroom₃.size_le⟩
  obtain ⟨went, m₅, h₅⟩ := guestWrite_room hroom₄ 1 CONTROL 5
  have hpages : pagesOf PAGE = 1 := by decide
  have hnext₁ : Forked.next ⟨.initial (fun _ _ => 0) 0x10000000000000, []⟩ .newRoot =
      some (true, ⟨m₁, expected [] true .newRoot⟩) := by
    rw [Forked.next, RootCall.perform, h₁]
    rfl
  have hnext₂ : ∀ c, Forked.next ⟨m₁, c⟩ (.populate 0 CONTROL PAGE 7) =
      some (true, ⟨m₂, expected c true (.populate 0 CONTROL PAGE 7)⟩) := by
    intro c
    have hpopulate : m₁.populate 0 CONTROL 7 1 = some m₂ := by
      have hroot : m₁.root 0 = some t₁ := rfl
      rw [Machine.populate, hroot]
      simp only [Option.bind_eq_bind, h₂, Option.bind_some]
      rfl
    rw [Forked.next, RootCall.perform, hpages, hpopulate]
    rfl
  have hnext₃ : ∀ c, Forked.next ⟨m₂, c⟩ (.clone 0) = some (true, ⟨m₃, expected c true (.clone 0)⟩) := by
    intro c
    rw [Forked.next, RootCall.perform, h₃]
    rfl
  have hnext₄ : ∀ c, Forked.next ⟨m₃, c⟩ (.release 0) =
      some (true, ⟨m₃.release 0, expected c true (.release 0)⟩) := fun _ => rfl
  have hnext₅ : ∀ c, Forked.next ⟨m₃.release 0, c⟩ (.write 1 CONTROL 5) =
      some (went, ⟨m₅, expected c went (.write 1 CONTROL 5)⟩) := by
    intro c
    rw [Forked.next, RootCall.perform, h₅]
    rfl
  have hvacant₁ : Vacant t₁ CONTROL (pagesOf PAGE) := by
    rw [hpages]
    refine ⟨fun k hk => ?_, fun j k hjk hk => by omega⟩
    obtain rfl : k = 0 := by omega
    exact hvacant
  have hcareful : EachMeets Forked.next Careful ⟨.initial (fun _ _ => 0) 0x10000000000000, []⟩
      [.newRoot, .populate 0 CONTROL PAGE 7, .clone 0, .release 0, .write 1 CONTROL 5] :=
    .cons (by decide : 0 + 1 < 65536) hnext₁ (.cons ⟨t₁, rfl, hvacant₁⟩ (hnext₂ _)
      (.cons ⟨rfl, (by decide : 1 + 1 < 65536)⟩ (hnext₃ _) (.cons rfl (hnext₄ _) (.cons rfl (hnext₅ _) trivial))))
  have hend : ∀ s : Forked, run Forked.next s [] = some ([], s) := fun _ => rfl
  have hrun := run_of_step hnext₁ (run_of_step (hnext₂ _) (run_of_step (hnext₃ _) (run_of_step (hnext₄ _)
    (run_of_step (hnext₅ _) (hend _)))))
  exact ⟨_, _, hrun, forks_sound _ (by decide) (by decide) _ hcareful hrun⟩

end SysvNt.ForkProbe

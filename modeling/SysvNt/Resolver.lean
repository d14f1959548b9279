import SysvNt.Paths

/-!
# A component-by-component resolver

The reference for path resolution, over lists of names and a fixed tree. A text is the list
of its components, each with the number of bytes that follow it. The resolver takes one
component at a time from the directory reached so far; a followed link is replaced by the
components of its target, resolved from the directory that contains the link, or from the
root if the target is absolute. `Limits` says which lengths are refused, so that the same
rules can be read with and without the buffers' bounds.
-/

namespace SysvNt.Resolver

/-- A component and the number of bytes of the text after it. -/
structure Comp where
  name : Bytes
  after : ℕ
  deriving DecidableEq

def Comp.shift (k : ℕ) (c : Comp) : Comp := { c with after := c.after + k }

/-- A byte in front of the text `s` with components `cs`: it joins the first of them unless
a slash comes between. -/
def joinByte (c : UInt8) (s : Bytes) : List Comp → List Comp
  | [] => [⟨[c], s.length⟩]
  | n :: ns =>
    if s.head? = some slash then ⟨[c], s.length⟩ :: n :: ns else ⟨c :: n.name, n.after⟩ :: ns

/-- The components of a text; runs of slashes separate. -/
def comps : Bytes → List Comp
  | [] => []
  | c :: s => if c = slash then comps s else joinByte c s (comps s)

structure Tree where
  stat : List Bytes → Except Errno KStat
  readlink : List Bytes → Except Errno Bytes
  mounted : List Bytes → Bool

/-- The lengths that are refused: of a given path, a name, a canonical path, a link's
target, and a text after a link was replaced. -/
structure Limits where
  given : ℕ → Bool
  name : ℕ → Bool
  path : ℕ → Bool
  target : ℕ → Bool
  text : ℕ → Bool

def Limits.none : Limits :=
  ⟨fun _ => false, fun _ => false, fun _ => false, fun _ => false, fun _ => false⟩

/-- What is asked: stop at the parent, leave a last link standing, whether the path given
ended in a slash, whether the object must be a directory. -/
structure Request where
  parent : Bool
  nofollow : Bool
  slashed : Bool
  demand : Bool

structure Found where
  dir : List Bytes
  last : Bytes
  deriving DecidableEq

section

variable (T : Tree) (L : Limits) (r : Request)

def demandDirectory (f : Found) : Except Errno Found :=
  match T.stat f.dir with
  | .error e => .error e
  | .ok st => if isDir st.mode then .ok f else .error .ENOTDIR

def finish (dir : List Bytes) : Except Errno Found :=
  if r.parent then .error .EEXIST
  else if r.demand then demandDirectory T ⟨dir, []⟩
  else .ok ⟨dir, []⟩

/-- Resolve components with `follow` for the links that are to be followed. -/
def resolveWith (follow : List Bytes → Comp → List Comp → Except Errno Found) :
    List Bytes → List Comp → Except Errno Found
  | dir, [] => finish T r dir
  | dir, c :: cs =>
    if L.name c.name.length then .error .ENAMETOOLONG
    else if c.name = dot then resolveWith follow dir cs
    else if c.name = dotdot then resolveWith follow dir.dropLast cs
    else if cs = [] ∧ r.parent = true then demandDirectory T ⟨dir, c.name⟩
    else if L.path (render (dir ++ [c.name])).length then .error .ENAMETOOLONG
    else if T.mounted (dir ++ [c.name]) then resolveWith follow (dir ++ [c.name]) cs
    else match T.stat (dir ++ [c.name]) with
      | .error e => .error e
      | .ok st =>
        if isLnk st.mode = true ∧ (cs ≠ [] ∨ r.nofollow = false ∨ r.slashed = true) then
          follow dir c cs
        else if cs ≠ [] ∧ isDir st.mode = false then .error .ENOTDIR
        else resolveWith follow (dir ++ [c.name]) cs

/-- Replace the link `c` of `dir` by its target, and go on with `next`. -/
def followLink (next : List Bytes → List Comp → Except Errno Found) (dir : List Bytes) (c : Comp)
    (cs : List Comp) : Except Errno Found :=
  match T.readlink (dir ++ [c.name]) with
  | .error e => .error e
  | .ok target =>
    if target = [] ∨ L.target target.length = true then .error .ENOENT
    else if L.text (target.length + c.after) then .error .ENAMETOOLONG
    else next (if target.head? = some slash then [] else dir)
      ((comps target).map (Comp.shift c.after) ++ cs)

def resolve : ℕ → List Bytes → List Comp → Except Errno Found
  | 0 => resolveWith T L r fun _ _ _ => .error .ELOOP
  | n + 1 => resolveWith T L r (followLink T L (resolve n))

/-- Resolve a path given from the directory `start`, following at most forty links. -/
def resolvePath (start : List Bytes) (path : Bytes) : Except Errno Found :=
  if path = [] then .error .ENOENT
  else if L.given path.length then .error .ENAMETOOLONG
  else resolve T L r 40 (if path.head? = some slash then [] else start) (comps path)

end

theorem comps_slash (s : Bytes) : comps (slash :: s) = comps s := by rw [comps, if_pos rfl]

theorem comps_cons {c : UInt8} (s : Bytes) (hc : c ≠ slash) :
    comps (c :: s) = joinByte c s (comps s) := by rw [comps, if_neg hc]

theorem comps_cons_ne_nil {c : UInt8} (s : Bytes) (hc : c ≠ slash) : comps (c :: s) ≠ [] := by
  rw [comps_cons s hc]
  cases comps s with
  | nil => simp [joinByte]
  | cons n ns =>
      rw [joinByte]
      split_ifs <;> simp

/-- Reading off the first component of a text that starts with one. -/
theorem comps_component (n s : Bytes) (hn : n ≠ []) (hslash : slash ∉ n)
    (hs : s = [] ∨ s.head? = some slash) : comps (n ++ s) = ⟨n, s.length⟩ :: comps s := by
  induction n with
  | nil => exact absurd rfl hn
  | cons c n ih =>
      have hc : c ≠ slash := fun he => hslash (he ▸ List.mem_cons_self)
      rw [List.cons_append, comps_cons _ hc]
      cases n with
      | nil =>
          rcases hs with rfl | hs
          · rfl
          · rw [List.nil_append]
            cases comps s with
            | nil => rfl
            | cons n ns => rw [joinByte, if_pos hs]
      | cons d n =>
          have hd : d ≠ slash := fun he => hslash (he ▸ by simp)
          have hhead : (d :: n ++ s).head? ≠ some slash := by simpa using hd
          rw [ih (List.cons_ne_nil d n) (fun he => hslash (List.mem_cons_of_mem c he)),
            joinByte, if_neg hhead]

/-- Pasting a target in front of a text that starts at a component's end: the target's
components, now followed by the text, and then the text's own. -/
theorem comps_append (t s : Bytes) (hs : s = [] ∨ s.head? = some slash) :
    comps (t ++ s) = (comps t).map (Comp.shift s.length) ++ comps s := by
  induction t with
  | nil => simp [comps]
  | cons c t ih =>
      by_cases hc : c = slash
      · rw [List.cons_append, hc, comps_slash, comps_slash, ih]
      · cases t with
        | nil =>
            rw [comps_component [c] s (by simp) (by simpa using Ne.symm hc) hs]
            simp [comps, hc, joinByte, Comp.shift]
        | cons d t =>
            rw [List.cons_append, comps_cons _ hc, comps_cons _ hc, ih]
            cases hct : comps (d :: t) with
            | nil =>
                have hd : d = slash := by
                  by_contra hd
                  exact comps_cons_ne_nil t hd hct
                subst hd
                cases comps s with
                | nil => simp [joinByte, Comp.shift]; omega
                | cons n ns => simp [joinByte, Comp.shift]; omega
            | cons n ns =>
                by_cases hd : d = slash
                · simp [joinByte, hd, Comp.shift]
                  omega
                · simp [joinByte, hd, Comp.shift]

theorem resolve_nil (T : Tree) (L : Limits) (r : Request) (n : ℕ) (dir : List Bytes) :
    resolve T L r n dir [] = finish T r dir := by
  cases n <;> rfl

/-- What the resolver does with a link it is to follow, with `n` links left. -/
def followWithin (T : Tree) (L : Limits) (r : Request) (n : ℕ) (dir : List Bytes) (c : Comp)
    (cs : List Comp) : Except Errno Found :=
  match n with
  | 0 => .error .ELOOP
  | n + 1 => followLink T L (resolve T L r n) dir c cs

theorem resolve_cons (T : Tree) (L : Limits) (r : Request) (n : ℕ) (dir : List Bytes) (c : Comp)
    (cs : List Comp) :
    resolve T L r n dir (c :: cs) =
      if L.name c.name.length then .error .ENAMETOOLONG
      else if c.name = dot then resolve T L r n dir cs
      else if c.name = dotdot then resolve T L r n dir.dropLast cs
      else if cs = [] ∧ r.parent = true then demandDirectory T ⟨dir, c.name⟩
      else if L.path (render (dir ++ [c.name])).length then .error .ENAMETOOLONG
      else if T.mounted (dir ++ [c.name]) then resolve T L r n (dir ++ [c.name]) cs
      else match T.stat (dir ++ [c.name]) with
        | .error e => .error e
        | .ok st =>
          if isLnk st.mode = true ∧ (cs ≠ [] ∨ r.nofollow = false ∨ r.slashed = true) then
            followWithin T L r n dir c cs
          else if cs ≠ [] ∧ isDir st.mode = false then .error .ENOTDIR
          else resolve T L r n (dir ++ [c.name]) cs := by
  cases n <;> rfl

end SysvNt.Resolver

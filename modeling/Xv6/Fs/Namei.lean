import Xv6.Fs.Path
import Xv6.Fs.File

/-!
# Path resolution against its specification

A path names the inode reached from the root, for a path starting with `/`,
or from the current directory, by looking up its components in turn: the
non-empty runs of bytes between slashes.  A directory entry's name has
`DIRSIZ` bytes, so a component is compared cut to that length.

`skipelem` finds the components one at a time, and `namex`'s loop is the fold
of `dirlookup` over them, stopping at an inode that is not a directory or a
component with no entry; `nameiparent` stops before the last component and
leaves it in `name`.  On every exit `namex` has given back each reference it
took, save the one on the inode it returns.
-/

namespace Xv6

namespace Fs

open Bytes

/-!
## The components of a path
-/

/-- The non-empty `/`-separated components of a path. -/
def components (path : List UInt8) : List (List UInt8) :=
  (path.splitOnP (· == 47)).filter (· ≠ [])

theorem components_append_slash (x y : List UInt8) : components (x ++ 47 :: y) = components x ++ components y := by
  unfold components
  rw [List.splitOnP_append_cons x y (by decide), List.filter_append]

theorem components_cons_slash (y : List UInt8) : components (47 :: y) = components y := by
  have h := components_append_slash [] y
  rwa [List.nil_append, show components [] = [] from rfl, List.nil_append] at h

theorem components_of_elem {w : List UInt8} (hne : w ≠ []) (h : ∀ c ∈ w, c ≠ 47) : components w = [w] := by
  unfold components
  rw [List.splitOnP_eq_singleton fun c hc => by simpa using h c hc]
  simp [hne]

theorem components_ne_nil {c : UInt8} {t : List UInt8} (hc : c ≠ 47) : components (c :: t) ≠ [] := by
  unfold components
  obtain ⟨w, ws, hw⟩ := List.exists_cons_of_ne_nil (List.splitOnP_ne_nil (· == 47) t)
  rw [List.splitOnP_cons_eq_if_modifyHead, if_neg (by simpa using hc), hw, List.modifyHead_cons,
    List.filter_cons_of_pos (by simp)]
  exact List.cons_ne_nil _ _

theorem components_dropWhile_slash (l : List UInt8) : components (l.dropWhile (· = 47)) = components l := by
  induction l with
  | nil => rfl
  | cons c t ih =>
      by_cases hc : c = 47
      · subst hc
        rw [List.dropWhile_cons_of_pos (by simp), ih, components_cons_slash]
      · rw [List.dropWhile_cons_of_neg (by simpa using hc)]

/-!
## `skipelem`
-/

theorem head_dropWhile {α : Type} {p : α → Bool} : ∀ {l t : List α} {c : α}, l.dropWhile p = c :: t → p c = false
  | [], _, _, h => by simp at h
  | a :: l, t, c, h => by
      by_cases ha : p a
      · rw [List.dropWhile_cons_of_pos ha] at h
        exact head_dropWhile h
      · rw [List.dropWhile_cons_of_neg ha] at h
        cases h
        simpa using ha

/-- The buffer `name` holds the component `elem`: its first `DIRSIZ` bytes,
with a terminating zero when it is shorter. -/
def Holds (name : Bytes) (elem : List UInt8) : Prop :=
  (∀ j < min elem.length DIRSIZ, name j = elem.getD j 0) ∧ (elem.length < DIRSIZ → name elem.length = 0)

theorem skipelem_eq_none_iff {path : List UInt8} {name : Bytes} :
    skipelem path name = none ↔ components path = [] := by
  rw [← components_dropWhile_slash]
  unfold skipelem
  cases hp : path.dropWhile (· = 47) with
  | nil => simp [components]
  | cons c t =>
      have hc : c ≠ 47 := by simpa using head_dropWhile hp
      simp only [reduceCtorEq, if_false, false_iff]
      exact components_ne_nil hc

theorem skipelem_components {path rest : List UInt8} {name name' : Bytes}
    (h : skipelem path name = some (rest, name')) :
    ∃ elem, components path = elem :: components rest ∧ Holds name' elem ∧ (rest = [] ↔ components rest = []) := by
  unfold skipelem at h
  rw [← components_dropWhile_slash]
  generalize hp : path.dropWhile (· = 47) = p at h
  have hne : p ≠ [] := by
    intro hnil
    simp [hnil] at h
  have hhead : ∀ c t, p = c :: t → c ≠ 47 := by
    intro c t hct
    simpa using head_dropWhile (hp.trans hct)
  simp only [hne, if_false, Option.some.injEq, Prod.mk.injEq] at h
  obtain ⟨hrest, hname⟩ := h
  -- the component is the run before the next slash, which is not empty
  set elem := p.takeWhile (· ≠ 47) with helem
  have helem_ne : elem ≠ [] := by
    obtain ⟨c, t, hct⟩ := List.exists_cons_of_ne_nil hne
    rw [helem, hct, List.takeWhile_cons_of_pos (by simpa using hhead c t hct)]
    exact List.cons_ne_nil _ _
  have hslash : ∀ c ∈ elem, c ≠ 47 := fun c hc => by simpa using List.mem_takeWhile_imp hc
  have hsplit : p = elem ++ p.dropWhile (· ≠ 47) := List.takeWhile_append_dropWhile.symm
  refine ⟨elem, ?_, ?_, ?_⟩
  · rw [← hrest, components_dropWhile_slash]
    cases hd : p.dropWhile (· ≠ 47) with
    | nil =>
        rw [hsplit, hd, List.append_nil, components_of_elem helem_ne hslash]
        rfl
    | cons c d =>
        -- the run ends at a slash
        have hc : c = 47 := by simpa using head_dropWhile hd
        rw [hsplit, hd, hc, components_append_slash, components_of_elem helem_ne hslash, components_cons_slash]
        rfl
  · rw [← hname]
    constructor
    · intro j hj
      split
      · dsimp only
        rw [if_pos (by omega)]
      · dsimp only
        rw [if_pos (by omega)]
    · intro hlt
      rw [if_neg (by omega), if_neg (Nat.lt_irrefl _), if_pos rfl]
  · constructor
    · intro hnil
      rw [hnil]
      rfl
    · intro hnil
      cases hr : rest with
      | nil => rfl
      | cons c t =>
          have hc : c ≠ 47 := by simpa using head_dropWhile (hrest.trans hr)
          rw [hr] at hnil
          exact absurd hnil (components_ne_nil hc)

/-- `skipelem` again and again, until it finds no component: the names it
leaves in the buffer. -/
def skipelems : Nat → List UInt8 → Bytes → List Bytes
  | 0, _, _ => []
  | fuel + 1, path, name =>
      match skipelem path name with
      | none => []
      | some (rest, name) => name :: skipelems fuel rest name

/-- Repeated `skipelem` gives the components of the path in order, each in
the buffer as `namex` compares it, when it may go on for longer than the
path. -/
theorem forall₂_skipelems : ∀ {fuel : Nat} {path : List UInt8} {name : Bytes}, path.length < fuel →
    List.Forall₂ (fun name elem => Holds name elem) (skipelems fuel path name) (components path)
  | 0, _, _, h => absurd h (Nat.not_lt_zero _)
  | fuel + 1, path, name, h => by
      unfold skipelems
      cases hs : skipelem path name with
      | none =>
          rw [skipelem_eq_none_iff.mp hs]
          exact .nil
      | some r =>
          obtain ⟨rest, name'⟩ := r
          obtain ⟨elem, hcomp, hholds, -⟩ := skipelem_components hs
          have hlt := skipelem_length hs
          rw [hcomp]
          exact .cons hholds (forall₂_skipelems (by omega))

/-!
## Comparing a component

`dirlookup` compares with `namecmp`, which stops at the first `NUL` of the
name: what the buffer kept past it from an earlier, longer component is not
read.
-/

theorem strncmp_of_holds {name : Bytes} {elem : List UInt8} (h : Holds name elem) (q : Bytes) :
    strncmp name q DIRSIZ = strncmp (ofList (elem.take DIRSIZ)) q DIRSIZ := by
  symm
  apply strncmp_congr_left
  intro j hj hpre
  by_cases hlen : j < elem.length
  · rw [h.1 j (lt_min hlen hj)]
    simp [ofList, List.getD_eq_getElem?_getD, hj]
  · -- the component ends inside the buffer, at the zero `skipelem` wrote
    have hzero : name elem.length = 0 := h.2 (by omega)
    have hj' : j = elem.length := by
      by_contra hne
      exact hpre elem.length (by omega) hzero
    subst hj'
    rw [hzero]
    simp [ofList, List.getD_eq_getElem?_getD]

theorem lookupLoop_congr {i : Fin NINODE} {name name' : Bytes}
    (h : ∀ q, strncmp name q DIRSIZ = strncmp name' q DIRSIZ) :
    ∀ (k : Nat) (s : State) (off : Nat), lookupLoop i name k s off = lookupLoop i name' k s off
  | 0, _, _ => rfl
  | k + 1, s, off => by
      simp only [lookupLoop, h, lookupLoop_congr h k]

theorem dirlookup_congr {s : State} {i : Fin NINODE} {name name' : Bytes}
    (h : ∀ q, strncmp name q DIRSIZ = strncmp name' q DIRSIZ) : dirlookup s i name = dirlookup s i name' := by
  unfold dirlookup
  rw [lookupLoop_congr h]

/-!
## The specification of `namex`
-/

/-- The inode the components name from `ip`, which the caller holds a
reference to: `dirlookup` of each in turn, compared cut to `DIRSIZ` bytes,
with no inode at an inode that is not a directory or a component with no
entry. -/
def resolve (s : State) (ip : Fin NINODE) : List (List UInt8) → Option (State × Option (Fin NINODE))
  | [] => some (s, some ip)
  | elem :: rest =>
      (ilock s ip).bind fun s =>
        if (s.icache ip).type ≠ T_DIR then (iput s ip).map fun s => (s, none)
        else
          match dirlookup s ip (ofList (elem.take DIRSIZ)) with
          | none => none
          | some (s, none) => (iput s ip).map fun s => (s, none)
          | some (s, some (next, _)) => (iput s ip).bind fun s => resolve s next rest

/-- The directory all components but the last name from `ip`: no inode for
no component, or when what they name is not a directory. -/
def resolveParent (s : State) (ip : Fin NINODE) (comps : List (List UInt8)) :
    Option (State × Option (Fin NINODE)) :=
  if comps = [] then (iput s ip).map fun s => (s, none)
  else
    (resolve s ip comps.dropLast).bind fun (s, r) =>
      match r with
      | none => some (s, none)
      | some dp =>
          (ilock s dp).bind fun s =>
            if (s.icache dp).type ≠ T_DIR then (iput s dp).map fun s => (s, none) else some (s, some dp)

/-- Where `namex` starts: the root for a path starting with `/`, else the
current directory `cwd`, with a reference taken. -/
def startOf (s : State) (cwd : Fin NINODE) (path : List UInt8) : Option (State × Fin NINODE) :=
  if path.head? = some 47 then iget s ROOTDEV ROOTINO else some (idup s cwd, cwd)

theorem namex_eq (s : State) (cwd : Fin NINODE) (path : List UInt8) (np : Bool) (name : Bytes) :
    namex s cwd path np name = (startOf s cwd path).bind fun p => namexLoop np p.1 p.2 path name :=
  rfl

theorem namexLoop_resolve (s : State) (ip : Fin NINODE) (path : List UInt8) (name : Bytes) :
    (namexLoop false s ip path name).map (fun r => (r.1, r.2.1)) = resolve s ip (components path) := by
  rw [namexLoop]
  split
  · rename_i h
    rw [skipelem_eq_none_iff.mp h]
    rfl
  · rename_i rest name' h
    obtain ⟨elem, hcomp, hholds, -⟩ := skipelem_components h
    have hlt : rest.length < path.length := skipelem_length h
    rw [hcomp, resolve, Option.map_bind]
    congr 1
    funext s
    rw [Function.comp_apply]
    by_cases hdir : (s.icache ip).type ≠ T_DIR
    · rw [if_pos hdir, if_pos hdir, Option.map_map]
      rfl
    · rw [if_neg hdir, if_neg hdir, if_neg (by simp), dirlookup_congr (strncmp_of_holds hholds)]
      rcases dirlookup s ip (ofList (elem.take DIRSIZ)) with _ | ⟨s, _ | ⟨next, off⟩⟩
      · rfl
      · rw [Option.map_map]
        rfl
      · -- the walk goes on from the entry's inode
        dsimp only
        rw [Option.map_bind]
        congr 1
        funext s
        rw [Function.comp_apply]
        exact namexLoop_resolve s next rest name'
termination_by path.length
decreasing_by assumption

theorem resolveParent_single (s : State) (ip : Fin NINODE) (elem : List UInt8) :
    resolveParent s ip [elem] =
      (ilock s ip).bind fun s =>
        if (s.icache ip).type ≠ T_DIR then (iput s ip).map fun s => (s, none) else some (s, some ip) := by
  rw [resolveParent, if_neg (List.cons_ne_nil _ _)]
  rfl

theorem resolveParent_cons (s : State) (ip : Fin NINODE) (elem : List UInt8) {comps : List (List UInt8)}
    (hc : comps ≠ []) :
    resolveParent s ip (elem :: comps) =
      (ilock s ip).bind fun s =>
        if (s.icache ip).type ≠ T_DIR then (iput s ip).map fun s => (s, none)
        else
          match dirlookup s ip (ofList (elem.take DIRSIZ)) with
          | none => none
          | some (s, none) => (iput s ip).map fun s => (s, none)
          | some (s, some (next, _)) => (iput s ip).bind fun s => resolveParent s next comps := by
  obtain ⟨c, cs, rfl⟩ := List.exists_cons_of_ne_nil hc
  rw [resolveParent, if_neg (List.cons_ne_nil _ _), List.dropLast_cons_cons, resolve, Option.bind_assoc]
  congr 1
  funext s
  by_cases hdir : (s.icache ip).type ≠ T_DIR
  · rw [if_pos hdir, if_pos hdir]
    cases iput s ip <;> rfl
  · rw [if_neg hdir, if_neg hdir]
    rcases dirlookup s ip (ofList (elem.take DIRSIZ)) with _ | ⟨s, _ | ⟨next, off⟩⟩
    · rfl
    · dsimp only
      cases iput s ip <;> rfl
    · -- the rest of the walk, then the check of the directory it ends at, is
      -- `resolveParent` from the entry's inode
      dsimp only
      rw [Option.bind_assoc]
      congr 1

theorem namexLoop_resolveParent (s : State) (ip : Fin NINODE) (path : List UInt8) (name : Bytes) :
    (namexLoop true s ip path name).map (fun r => (r.1, r.2.1)) = resolveParent s ip (components path) := by
  rw [namexLoop]
  split
  · rename_i h
    rw [skipelem_eq_none_iff.mp h, resolveParent, if_pos rfl, Option.map_map]
    rfl
  · rename_i rest name' h
    obtain ⟨elem, hcomp, hholds, hrest⟩ := skipelem_components h
    have hlt : rest.length < path.length := skipelem_length h
    rw [hcomp, Option.map_bind]
    by_cases hlast : components rest = []
    · -- the last component: `namex` stops before looking it up
      rw [hlast, resolveParent_single]
      congr 1
      funext s
      rw [Function.comp_apply]
      by_cases hdir : (s.icache ip).type ≠ T_DIR
      · rw [if_pos hdir, if_pos hdir, Option.map_map]
        rfl
      · rw [if_neg hdir, if_neg hdir, if_pos ⟨rfl, hrest.mpr hlast⟩]
        rfl
    · rw [resolveParent_cons s ip elem hlast]
      congr 1
      funext s
      rw [Function.comp_apply]
      by_cases hdir : (s.icache ip).type ≠ T_DIR
      · rw [if_pos hdir, if_pos hdir, Option.map_map]
        rfl
      · have hmore : ¬(true = true ∧ rest = []) := fun h => hlast (hrest.mp h.2)
        rw [if_neg hdir, if_neg hdir, if_neg hmore, dirlookup_congr (strncmp_of_holds hholds)]
        rcases dirlookup s ip (ofList (elem.take DIRSIZ)) with _ | ⟨s, _ | ⟨next, off⟩⟩
        · rfl
        · rw [Option.map_map]
          rfl
        · dsimp only
          rw [Option.map_bind]
          congr 1
          funext s
          rw [Function.comp_apply]
          exact namexLoop_resolveParent s next rest name'
termination_by path.length
decreasing_by assumption

theorem namexLoop_parent_name {s s' : State} {ip dp : Fin NINODE} {path : List UInt8} {name name' : Bytes}
    (h : namexLoop true s ip path name = some (s', some dp, name')) :
    ∃ elem, (components path).getLast? = some elem ∧ Holds name' elem := by
  rw [namexLoop] at h
  split at h
  · obtain ⟨_, -, he⟩ := Option.map_eq_some_iff.mp h
    cases he
  · rename_i rest name₁ hs
    obtain ⟨elem, hcomp, hholds, hrest⟩ := skipelem_components hs
    have hlt : rest.length < path.length := skipelem_length hs
    obtain ⟨s₁, -, h⟩ := Option.bind_eq_some_iff.mp h
    rw [hcomp]
    split at h
    · obtain ⟨_, -, he⟩ := Option.map_eq_some_iff.mp h
      cases he
    · split at h
      · -- the stop before the last component
        rename_i hstop
        cases h
        rw [hrest.mp hstop.2]
        exact ⟨elem, rfl, hholds⟩
      · split at h
        · cases h
        · obtain ⟨_, -, he⟩ := Option.map_eq_some_iff.mp h
          cases he
        · obtain ⟨s₂, -, h⟩ := Option.bind_eq_some_iff.mp h
          obtain ⟨elem', hlast, hholds'⟩ := namexLoop_parent_name h
          -- the components after the first are not none, so the last is theirs
          cases hcs : components rest with
          | nil =>
              rw [hcs] at hlast
              cases hlast
          | cons c cs =>
              rw [hcs] at hlast
              exact ⟨elem', by rw [List.getLast?_cons_cons, hlast], hholds'⟩
termination_by path.length
decreasing_by assumption

/-!
## References

`namex` takes a reference to the inode it starts from, `dirlookup` one to
the inode of each entry it finds, and `iunlockput` gives back that of each
directory it leaves: on every exit the one reference left is on the inode it
returns.
-/

/-- The reference a result `r` holds to cache slot `j`. -/
def held (r : Option (Fin NINODE)) (j : Fin NINODE) : Int :=
  if r = some j then 1 else 0

@[simp] theorem held_none (j : Fin NINODE) : held none j = 0 := rfl

section References

variable {s s' : State} {i : Fin NINODE}

theorem ilock_ref (h : ilock s i = some s') (j : Fin NINODE) : (s'.icache j).ref = (s.icache j).ref := by
  unfold ilock at h
  dsimp only at h
  split at h
  · cases h
  · split at h
    · cases h
      rfl
    · split at h
      · cases h
      · -- the entry is read in, its reference count untouched
        cases h
        by_cases hj : j = i
        · subst hj
          simp
        · rw [State.setInode_icache_of_ne hj]

theorem bfree_sameInodes {b : Nat} (h : bfree s b = some s') : SameInodes s s' := by
  unfold bfree at h
  dsimp only at h
  split at h
  · cases h
  · cases h
    exact SameInodes.setDisk _ _ _

theorem truncDirect_sameInodes (h : truncDirect i s = some s') : SameInodes s s' := by
  unfold truncDirect at h
  rw [Run.foldlM_eq_exec] at h
  refine Run.exec_invariant (P := SameInodes s) ?_ h (SameInodes.refl s)
  intro s₁ j s₂ h₁ hstep
  dsimp only at hstep
  split at hstep
  · obtain ⟨s₃, hb, rfl⟩ := Option.map_eq_some_iff.mp hstep
    exact h₁.trans ((bfree_sameInodes hb).trans (SameInodes.setAddr _ _ _ _))
  · cases hstep
    exact h₁

theorem truncIndirect_sameInodes {ia : Nat} (h : truncIndirect ia s = some s') : SameInodes s s' := by
  unfold truncIndirect at h
  rw [Run.foldlM_eq_exec] at h
  refine Run.exec_invariant (P := SameInodes s) ?_ h (SameInodes.refl s)
  intro s₁ j s₂ h₁ hstep
  dsimp only at hstep
  split at hstep
  · exact h₁.trans (bfree_sameInodes hstep)
  · cases hstep
    exact h₁

theorem itrunc_ref (h : itrunc s i = some s') (j : Fin NINODE) : (s'.icache j).ref = (s.icache j).ref := by
  obtain ⟨s₁, h₁, h⟩ := Option.bind_eq_some_iff.mp h
  obtain ⟨s₂, h₂, rfl⟩ := Option.map_eq_some_iff.mp h
  have hsame : SameInodes s s₂ := by
    refine (truncDirect_sameInodes h₁).trans ?_
    split at h₂
    · obtain ⟨s₃, h₃, rfl⟩ := Option.map_eq_some_iff.mp h₂
      obtain ⟨s₄, h₄, h₅⟩ := Option.bind_eq_some_iff.mp h₃
      exact (truncIndirect_sameInodes h₄).trans ((bfree_sameInodes h₅).trans (SameInodes.setAddr _ _ _ _))
    · cases h₂
      exact SameInodes.refl _
  rw [← hsame.ref j]
  by_cases hj : j = i
  · subst hj
    simp
  · simp [State.setInode_icache_of_ne hj]

theorem iput_ref (h : iput s i = some s') (j : Fin NINODE) :
    (s'.icache j).ref = (s.icache j).ref - held (some i) j := by
  obtain ⟨s₁, hfreed, rfl⟩ := Option.map_eq_some_iff.mp h
  have h₁ : ∀ j, (s₁.icache j).ref = (s.icache j).ref := by
    split at hfreed
    · obtain ⟨s₂, htrunc, rfl⟩ := Option.map_eq_some_iff.mp hfreed
      intro j
      rw [← itrunc_ref htrunc j]
      by_cases hj : j = i
      · subst hj
        simp
      · simp [State.setInode_icache_of_ne hj]
    · cases hfreed
      intro j
      rfl
  by_cases hj : j = i
  · subst hj
    simp [held, h₁]
  · have hne : some i ≠ some j := fun h => hj (Option.some_inj.mp h).symm
    simp [held, hne, State.setInode_icache_of_ne hj, h₁]

theorem iget_ref {dev inum : Nat} (h : iget s dev inum = some (s', i)) (j : Fin NINODE) :
    (s'.icache j).ref = (s.icache j).ref + held (some i) j := by
  unfold iget at h
  split at h
  · cases h
    by_cases hj : j = i
    · subst hj
      simp [held]
    · have hne : some i ≠ some j := fun h => hj (Option.some_inj.mp h).symm
      simp [held, hne, State.setInode_icache_of_ne hj]
  · split at h
    · -- a recycled slot had no reference
      rename_i hfree
      cases h
      have h0 : (s.icache i).ref = 0 := by simpa using List.find?_some hfree
      by_cases hj : j = i
      · subst hj
        simp [held, h0]
      · have hne : some i ≠ some j := fun h => hj (Option.some_inj.mp h).symm
        simp [held, hne, State.setInode_icache_of_ne hj]
    · cases h

theorem idup_ref (j : Fin NINODE) : ((idup s i).icache j).ref = (s.icache j).ref + held (some i) j := by
  by_cases hj : j = i
  · subst hj
    simp [idup, held]
  · have hne : some i ≠ some j := fun h => hj (Option.some_inj.mp h).symm
    simp [idup, held, hne, State.setInode_icache_of_ne hj]

theorem readi_sameInodes {off n : UInt32} {r : Int} {dst : List UInt8} (h : readi s i off n = some (s', r, dst)) :
    SameInodes s s' := by
  by_cases ht : (s.icache i).type = T_DEV
  · simp [readi, ht] at h
  · rcases readi_spec ht h with ⟨-, rfl⟩ | ⟨-, -, hsame⟩
    · exact SameInodes.refl _
    · exact hsame

theorem lookupLoop_ref {name : Bytes} {r : Option (Fin NINODE × Nat)} :
    ∀ {k : Nat} {s : State} {off : Nat}, lookupLoop i name k s off = some (s', r) →
      ∀ j, (s'.icache j).ref = (s.icache j).ref + held (r.map Prod.fst) j
  | 0, s, off, h => by
      cases h
      simp
  | k + 1, s, off, h => by
      unfold lookupLoop at h
      split at h
      · split at h
        · cases h
        · rename_i s₁ r₁ de hr
          have h₁ := (readi_sameInodes hr).ref
          split at h
          · cases h
          · dsimp only at h
            split at h
            · intro j
              rw [lookupLoop_ref h j, h₁ j]
            · split at h
              · -- the entry named: `iget` of its inode
                obtain ⟨⟨s₂, next⟩, hg, he⟩ := Option.map_eq_some_iff.mp h
                cases he
                intro j
                rw [iget_ref hg j, h₁ j]
                rfl
              · intro j
                rw [lookupLoop_ref h j, h₁ j]
      · cases h
        simp

theorem dirlookup_ref {name : Bytes} {r : Option (Fin NINODE × Nat)} (h : dirlookup s i name = some (s', r))
    (j : Fin NINODE) : (s'.icache j).ref = (s.icache j).ref + held (r.map Prod.fst) j := by
  unfold dirlookup at h
  split at h
  · cases h
  · exact lookupLoop_ref h j

end References

theorem resolve_ref {comps : List (List UInt8)} :
    ∀ {s s' : State} {ip : Fin NINODE} {r : Option (Fin NINODE)}, resolve s ip comps = some (s', r) →
      ∀ j, (s'.icache j).ref + held (some ip) j = (s.icache j).ref + held r j := by
  induction comps with
  | nil =>
      intro s s' ip r h j
      cases h
      rfl
  | cons elem rest ih =>
      intro s s' ip r h j
      rw [resolve] at h
      obtain ⟨s₁, hl, h⟩ := Option.bind_eq_some_iff.mp h
      have h₁ := ilock_ref hl j
      split at h
      · -- not a directory: `iunlockput`
        obtain ⟨s₂, hp, he⟩ := Option.map_eq_some_iff.mp h
        cases he
        rw [iput_ref hp j, h₁, held_none]
        omega
      · split at h
        · cases h
        · rename_i s₂ hd
          obtain ⟨s₃, hp, he⟩ := Option.map_eq_some_iff.mp h
          cases he
          have h₂ := dirlookup_ref hd j
          rw [Option.map_none] at h₂
          rw [iput_ref hp j, h₂, h₁, held_none]
          omega
        · -- the entry's inode, with the reference `dirlookup` took, goes on
          rename_i s₂ next off hd
          obtain ⟨s₃, hp, h⟩ := Option.bind_eq_some_iff.mp h
          have h₂ := dirlookup_ref hd j
          have h₃ := iput_ref hp j
          have h₄ := ih h j
          rw [Option.map_some] at h₂
          dsimp only at h₂
          omega

theorem resolveParent_ref {s s' : State} {ip : Fin NINODE} {comps : List (List UInt8)} {r : Option (Fin NINODE)}
    (h : resolveParent s ip comps = some (s', r)) (j : Fin NINODE) :
    (s'.icache j).ref + held (some ip) j = (s.icache j).ref + held r j := by
  unfold resolveParent at h
  split at h
  · obtain ⟨s₁, hp, he⟩ := Option.map_eq_some_iff.mp h
    cases he
    rw [iput_ref hp j, held_none]
    omega
  · obtain ⟨⟨s₁, r₁⟩, hres, h⟩ := Option.bind_eq_some_iff.mp h
    have h₁ := resolve_ref hres j
    dsimp only at h
    cases r₁ with
    | none =>
      cases h
      exact h₁
    | some dp =>
      -- the directory the walk ends at is checked under its lock
      obtain ⟨s₂, hl, h⟩ := Option.bind_eq_some_iff.mp h
      have h₂ := ilock_ref hl j
      split at h
      · obtain ⟨s₃, hp, he⟩ := Option.map_eq_some_iff.mp h
        cases he
        rw [iput_ref hp j, held_none]
        omega
      · cases h
        omega

theorem startOf_ref {s s' : State} {cwd ip : Fin NINODE} {path : List UInt8} (h : startOf s cwd path = some (s', ip))
    (j : Fin NINODE) : (s'.icache j).ref = (s.icache j).ref + held (some ip) j := by
  unfold startOf at h
  split at h
  · exact iget_ref h j
  · cases h
    exact idup_ref j

theorem start_then_ref {s s' : State} {cwd : Fin NINODE} {path : List UInt8} {r : Option (Fin NINODE)}
    {walk : State → Fin NINODE → Option (State × Option (Fin NINODE))}
    (hwalk : ∀ {s s' ip r}, walk s ip = some (s', r) →
      ∀ j, (s'.icache j).ref + held (some ip) j = (s.icache j).ref + held r j)
    (h : ((startOf s cwd path).bind fun p => walk p.1 p.2) = some (s', r)) (j : Fin NINODE) :
    (s'.icache j).ref = (s.icache j).ref + held r j := by
  obtain ⟨⟨s₁, ip⟩, hstart, h⟩ := Option.bind_eq_some_iff.mp h
  dsimp only at h
  have h₁ := startOf_ref hstart j
  have h₂ := hwalk h j
  omega

/-!
## `namei` and `nameiparent`
-/

theorem namei_eq_resolve (s : State) (cwd : Fin NINODE) (path : List UInt8) :
    namei s cwd path = (startOf s cwd path).bind fun p => resolve p.1 p.2 (components path) := by
  rw [namei, namex_eq, Option.map_bind]
  congr 1
  funext p
  exact namexLoop_resolve p.1 p.2 path _

theorem nameiparent_eq_resolveParent (s : State) (cwd : Fin NINODE) (path : List UInt8) (name : Bytes) :
    (nameiparent s cwd path name).map (fun r => (r.1, r.2.1)) =
      (startOf s cwd path).bind fun p => resolveParent p.1 p.2 (components path) := by
  rw [nameiparent, namex_eq, Option.map_bind]
  congr 1
  funext p
  exact namexLoop_resolveParent p.1 p.2 path name

theorem namei_ref {s s' : State} {cwd : Fin NINODE} {path : List UInt8} {r : Option (Fin NINODE)}
    (h : namei s cwd path = some (s', r)) (j : Fin NINODE) :
    (s'.icache j).ref = (s.icache j).ref + held r j := by
  rw [namei_eq_resolve] at h
  exact start_then_ref resolve_ref h j

theorem nameiparent_ref {s s' : State} {cwd : Fin NINODE} {path : List UInt8} {name name' : Bytes}
    {r : Option (Fin NINODE)} (h : nameiparent s cwd path name = some (s', r, name')) (j : Fin NINODE) :
    (s'.icache j).ref = (s.icache j).ref + held r j := by
  have hmap := nameiparent_eq_resolveParent s cwd path name
  rw [h, Option.map_some] at hmap
  exact start_then_ref resolveParent_ref hmap.symm j

theorem nameiparent_of_no_component {s s' : State} {cwd : Fin NINODE} {path : List UInt8} {name name' : Bytes}
    {r : Option (Fin NINODE)} (hnil : components path = []) (h : nameiparent s cwd path name = some (s', r, name')) :
    r = none := by
  have hmap := nameiparent_eq_resolveParent s cwd path name
  rw [h, Option.map_some, hnil] at hmap
  obtain ⟨p, -, hp⟩ := Option.bind_eq_some_iff.mp hmap.symm
  rw [resolveParent, if_pos rfl] at hp
  obtain ⟨_, -, he⟩ := Option.map_eq_some_iff.mp hp
  cases he
  rfl

theorem nameiparent_name {s s' : State} {cwd dp : Fin NINODE} {path : List UInt8} {name name' : Bytes}
    (h : nameiparent s cwd path name = some (s', some dp, name')) :
    ∃ elem, (components path).getLast? = some elem ∧ Holds name' elem := by
  rw [nameiparent, namex_eq] at h
  obtain ⟨p, -, h⟩ := Option.bind_eq_some_iff.mp h
  exact namexLoop_parent_name h

/-- Path resolution against its specification.  Repeated `skipelem` leaves
in the buffer the components of the path in order: the non-empty runs between
slashes, each cut to `DIRSIZ` bytes.  `namei` resolves them from the root
or the current directory, looking each up in turn and stopping at an inode
that is not a directory or a component with no entry; `nameiparent` resolves
all but the last, returns no inode for a path with no component, and leaves
the last in `name`.  On every exit each reference count is as it was, save
one more on the inode returned. -/
theorem namex_resolves_components (s : State) (cwd : Fin NINODE) (path : List UInt8) (name : Bytes) :
    List.Forall₂ Holds (skipelems (path.length + 1) path name) (components path) ∧
    namei s cwd path = (startOf s cwd path).bind (fun p => resolve p.1 p.2 (components path)) ∧
    (nameiparent s cwd path name).map (fun r => (r.1, r.2.1)) =
      (startOf s cwd path).bind (fun p => resolveParent p.1 p.2 (components path)) ∧
    (∀ s' dp name', nameiparent s cwd path name = some (s', some dp, name') →
      ∃ elem, (components path).getLast? = some elem ∧ Holds name' elem) ∧
    (components path = [] → ∀ s' r name', nameiparent s cwd path name = some (s', r, name') → r = none) ∧
    (∀ s' r, namei s cwd path = some (s', r) → ∀ j, (s'.icache j).ref = (s.icache j).ref + held r j) ∧
    (∀ s' r name', nameiparent s cwd path name = some (s', r, name') →
      ∀ j, (s'.icache j).ref = (s.icache j).ref + held r j) :=
  ⟨forall₂_skipelems (Nat.lt_succ_self _), namei_eq_resolve s cwd path,
    nameiparent_eq_resolveParent s cwd path name, fun _ _ _ h => nameiparent_name h,
    fun hnil _ _ _ h => nameiparent_of_no_component hnil h, fun _ _ h => namei_ref h,
    fun _ _ _ h => nameiparent_ref h⟩

end Fs

end Xv6

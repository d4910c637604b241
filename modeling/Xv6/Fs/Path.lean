import Mathlib.Data.List.TakeWhile
import Xv6.Fs.Content

/-!
# Path names

`namex` walks a path an element at a time: `skipelem` copies the next element
into `name`, and `dirlookup` finds it in the directory reached so far, which
is locked for the lookup and let go after it.  A path starting with `/`
starts at the root, any other at the current directory of the process.

A path is its bytes before the terminating zero.  `name` is the caller's
buffer of `DIRSIZ` bytes: an element shorter than `DIRSIZ` is copied with a
terminating zero, past which the buffer keeps what it held; a longer one is
cut to `DIRSIZ` bytes, with no zero.
-/

namespace Xv6

namespace Fs

open Bytes

/-- `skipelem`: the path after the next element, and `name` holding that
element; `none` when only slashes are left. -/
def skipelem (path : List UInt8) (name : Bytes) : Option (List UInt8 × Bytes) :=
  let path := path.dropWhile (· = 47)
  if path = [] then none
  else
    let elem := path.takeWhile (· ≠ 47)
    let len := elem.length
    let name : Bytes :=
      if len ≥ DIRSIZ then fun j => if j < DIRSIZ then elem.getD j 0 else name j
      else fun j => if j < len then elem.getD j 0 else if j = len then 0 else name j
    some ((path.dropWhile (· ≠ 47)).dropWhile (· = 47), name)

theorem skipelem_length {path rest : List UInt8} {name name' : Bytes} (h : skipelem path name = some (rest, name')) :
    rest.length < path.length := by
  unfold skipelem at h
  cases hp : path.dropWhile (· = 47) with
  | nil => simp [hp] at h
  | cons c t =>
      simp only [hp, reduceCtorEq, if_false, Option.some.injEq, Prod.mk.injEq] at h
      have hc : c ≠ 47 := by
        have := List.head_dropWhile_not (fun c : UInt8 => decide (c = 47)) (l := path) (by simp [hp])
        simpa [hp] using this
      have hle : (path.dropWhile (· = 47)).length ≤ path.length := List.length_dropWhile_le _ _
      rw [← h.1, hp, List.dropWhile_cons_of_pos (by simpa using hc)] at *
      have h₁ := List.length_dropWhile_le (· = 47) (t.dropWhile (· ≠ 47))
      have h₂ := List.length_dropWhile_le (· ≠ 47) t
      simp only [List.length_cons] at hle
      omega

theorem skipelem_of_slashes {path : List UInt8} {name : Bytes} (h : ∀ c ∈ path, c = 47) :
    skipelem path name = none := by
  have hd : path.dropWhile (· = 47) = [] := List.dropWhile_eq_nil_iff.mpr fun c hc => by simpa using h c hc
  simp [skipelem, hd]

theorem skipelem_of_elem {elem : List UInt8} {name : Bytes} (hne : elem ≠ []) (hs : ∀ c ∈ elem, c ≠ 47)
    (hlen : elem.length < DIRSIZ) :
    skipelem elem name =
      some ([], fun j => if j < elem.length then elem.getD j 0 else if j = elem.length then 0 else name j) := by
  have hd : elem.dropWhile (· = 47) = elem := List.dropWhile_eq_self_iff.mpr fun hl => by
    simpa using hs _ (List.getElem_mem hl)
  have ht : elem.takeWhile (· ≠ 47) = elem := List.takeWhile_eq_self_iff.mpr fun c hc => by simpa using hs c hc
  have hr : elem.dropWhile (· ≠ 47) = [] := List.dropWhile_eq_nil_iff.mpr fun c hc => by simpa using hs c hc
  simp only [skipelem, hd, ht, hr, if_neg hne, if_neg (Nat.not_le.mpr hlen), List.dropWhile_nil]

set_option linter.unusedVariables false in
/-- `namex`'s loop from `ip`, which the caller holds a reference to: the inode
the rest of the path names, or none, and the last element; `none` is a
panic. -/
def namexLoop (nameiparent : Bool) (s : State) (ip : Fin NINODE) (path : List UInt8) (name : Bytes) :
    Option (State × Option (Fin NINODE) × Bytes) :=
  match h : skipelem path name with
  | none =>
      if nameiparent then (iput s ip).map fun s => (s, none, name)
      else some (s, some ip, name)
  | some (rest, name) =>
      (ilock s ip).bind fun s =>
        -- `iunlockput(ip)`: the sleep-lock is not modelled, so it is `iput`
        if (s.icache ip).type ≠ T_DIR then (iput s ip).map fun s => (s, none, name)
        -- stop one level early
        else if nameiparent ∧ rest = [] then some (s, some ip, name)
        else
          match dirlookup s ip name with
          | none => none
          | some (s, none) => (iput s ip).map fun s => (s, none, name)
          | some (s, some (next, _)) => (iput s ip).bind fun s => namexLoop nameiparent s next rest name
termination_by path.length
decreasing_by exact skipelem_length h

theorem namexLoop_of_none {nameiparent : Bool} {s : State} {ip : Fin NINODE} {path : List UInt8} {name : Bytes}
    (h : skipelem path name = none) :
    namexLoop nameiparent s ip path name =
      if nameiparent then (iput s ip).map fun s => (s, none, name) else some (s, some ip, name) := by
  rw [namexLoop]
  split
  · rfl
  · simp_all

theorem namexLoop_of_missing {nameiparent : Bool} {s s' s'' : State} {ip : Fin NINODE} {path rest : List UInt8}
    {name name' : Bytes} (h : skipelem path name = some (rest, name')) (hl : ilock s ip = some s')
    (hdir : (s'.icache ip).type = T_DIR) (hpar : ¬(nameiparent ∧ rest = []))
    (hd : dirlookup s' ip name' = some (s'', none)) :
    namexLoop nameiparent s ip path name = (iput s'' ip).map fun s => (s, none, name') := by
  rw [namexLoop]
  split
  · simp_all
  · rename_i rest₁ name₁ h₁
    obtain ⟨rfl, rfl⟩ : rest₁ = rest ∧ name₁ = name' := by simpa [h] using h₁.symm
    simp [hl, hdir, hpar, hd]

/-- `namex`: from the root for a path starting with `/`, else from `idup` of
the current directory `cwd`. -/
def namex (s : State) (cwd : Fin NINODE) (path : List UInt8) (nameiparent : Bool) (name : Bytes) :
    Option (State × Option (Fin NINODE) × Bytes) :=
  let start : Option (State × Fin NINODE) :=
    if path.head? = some 47 then iget s ROOTDEV ROOTINO else some (idup s cwd, cwd)
  start.bind fun (s, ip) => namexLoop nameiparent s ip path name

/-- `namei`; its `name` is a buffer on the stack, taken here as zeros. -/
def namei (s : State) (cwd : Fin NINODE) (path : List UInt8) : Option (State × Option (Fin NINODE)) :=
  (namex s cwd path false fun _ => 0).map fun (s, ip, _) => (s, ip)

def nameiparent (s : State) (cwd : Fin NINODE) (path : List UInt8) (name : Bytes) :
    Option (State × Option (Fin NINODE) × Bytes) :=
  namex s cwd path true name

end Fs

end Xv6

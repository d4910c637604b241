import Mathlib
import Xv6.Proc.Basic

/-!
# The MP configuration table

`mpconfig` (`mp.c`) accepts the configuration table of the floating pointer
`mpsearch` found when its signature is `"PCMP"`, its version `1` or `4`, and
its `length` bytes add up to `0`.  `mpinit` then walks the entries after the
header up to `conf + length`, one `switch` on the type byte per turn: a
processor records its local APIC id while `ncpu < NCPU`, an I/O APIC sets
`ioapicid`, and bus and interrupt entries are skipped.

The `default` case sets `ismp = 0` and `break`s out of the `switch`, not out
of the loop, and leaves `p` where it is: at an entry of unknown type the loop
turns forever (`entryLoop_spins`), and it ends exactly when it meets none
(`entryLoop_ends_iff`).  A processor or I/O APIC entry at the last byte of the
table reads its id from the byte after it (`entryLoop_congr`).

Memory is physical memory as bytes, which `mpinit` reads through `P2V`.
`mpsearch` and the `outb`s for `imcrp` after the loop are not modelled.
-/

namespace Xv6

namespace Boot

/-- Physical memory, by address. -/
abbrev Mem := Nat → UInt8

-- table entry types of `mp.h`
def MPPROC : UInt8 := 0x00
def MPBUS : UInt8 := 0x01
def MPIOAPIC : UInt8 := 0x02
def MPIOINTR : UInt8 := 0x03
def MPLINTR : UInt8 := 0x04

-- `sizeof` the structures of `mp.h`
def sizeofMpconf : Nat := 44
def sizeofMpproc : Nat := 20
def sizeofMpioapic : Nat := 8

/-- `struct mp`, the floating pointer: the field `mpconfig` reads. -/
structure Mp where
  physaddr : Nat

/-- `sum(addr, len)`: the bytes added up, as the `uchar` it returns. -/
def sum (m : Mem) (addr len : Nat) : UInt8 :=
  ((List.range len).map fun i => m (addr + i)).sum

/-- `conf->length`, the `ushort` at offset `4` of `struct mpconf`. -/
def length (m : Mem) (conf : Nat) : Nat :=
  (m (conf + 4)).toNat + 256 * (m (conf + 5)).toNat

/-- `conf->version`, at offset `6`. -/
def version (m : Mem) (conf : Nat) : UInt8 :=
  m (conf + 6)

/-- `conf->lapicaddr`, the word at offset `36`. -/
def lapicaddr (m : Mem) (conf : Nat) : Nat :=
  (m (conf + 36)).toNat + 256 * (m (conf + 37)).toNat + 65536 * (m (conf + 38)).toNat +
    16777216 * (m (conf + 39)).toNat

/-- `mpconfig`: the address of the configuration table of the floating
pointer `mpsearch` found, if it passes the checks. -/
def mpconfig (m : Mem) : Option Mp → Option Nat
  | none => none
  | some mp =>
      if mp.physaddr = 0 then none
      else
        let conf := mp.physaddr
        -- `memcmp(conf, "PCMP", 4) != 0`
        if (List.range 4).map (fun i => m (conf + i)) ≠ [0x50, 0x43, 0x4D, 0x50] then none
        else if version m conf ≠ 1 ∧ version m conf ≠ 4 then none
        else if sum m conf (length m conf) ≠ 0 then none
        else some conf

/-- What `mpinit`'s loop works on: `p`, the local APIC ids of `cpus[0..ncpu)`,
`ioapicid` and `ismp`. -/
structure Walk where
  p : Nat
  cpus : List UInt8
  ioapicid : UInt8
  ismp : Bool
  deriving DecidableEq

/-- The entry types the `switch` has a case for. -/
def known (t : UInt8) : Bool :=
  t == MPPROC || t == MPIOAPIC || t == MPBUS || t == MPIOINTR || t == MPLINTR

/-- One turn of `mpinit`'s loop, at the entry at `p`. -/
def entry (m : Mem) (w : Walk) : Walk :=
  let t := m w.p
  if t = MPPROC then
    -- `cpus[ncpu].apicid = proc->apicid; ncpu++` while `ncpu < NCPU`
    { w with cpus := if w.cpus.length < NCPU then w.cpus ++ [m (w.p + 1)] else w.cpus,
             p := w.p + sizeofMpproc }
  else if t = MPIOAPIC then { w with ioapicid := m (w.p + 1), p := w.p + sizeofMpioapic }
  else if t = MPBUS ∨ t = MPIOINTR ∨ t = MPLINTR then { w with p := w.p + 8 }
  else
    -- `ismp = 0; break;` leaves the `switch` only: `p` stays
    { w with ismp := false }

/-- `for(; p < e; )` with `fuel` turns; `none` when they run out. -/
def entryLoop (m : Mem) (e : Nat) : Nat → Walk → Option Walk
  | 0, w => if w.p < e then none else some w
  | fuel + 1, w => if w.p < e then entryLoop m e fuel (entry m w) else some w

/-- `mpinit` with `fuel` turns of its loop: `none` when they run out, an
error for a panic, and otherwise `lapic` and the walk's end, with the
processors and the I/O APIC it found. -/
def mpinit (fuel : Nat) (m : Mem) (mp : Option Mp) : Option (Except String (Nat × Walk)) :=
  match mpconfig m mp with
  | none => some (.error "Expect to run on an SMP")
  | some conf =>
      (entryLoop m (conf + length m conf) fuel ⟨conf + sizeofMpconf, [], 0, true⟩).map fun w =>
        if !w.ismp then .error "Didn't find a suitable machine" else .ok (lapicaddr m conf, w)

/-!
## One turn
-/

section Entry

variable {m m₁ m₂ : Mem} {w : Walk} {e : Nat}

theorem entry_cases (m : Mem) (w : Walk) :
    (m w.p = MPPROC ∧
      entry m w = { w with cpus := (if w.cpus.length < NCPU then w.cpus ++ [m (w.p + 1)] else w.cpus),
                           p := w.p + sizeofMpproc }) ∨
    (m w.p = MPIOAPIC ∧ entry m w = { w with ioapicid := m (w.p + 1), p := w.p + sizeofMpioapic }) ∨
    ((m w.p = MPBUS ∨ m w.p = MPIOINTR ∨ m w.p = MPLINTR) ∧ entry m w = { w with p := w.p + 8 }) ∨
    (known (m w.p) = false ∧ entry m w = { w with ismp := false }) := by
  unfold entry
  by_cases h₀ : m w.p = MPPROC
  · exact .inl ⟨h₀, if_pos h₀⟩
  · rw [if_neg h₀]
    by_cases h₂ : m w.p = MPIOAPIC
    · exact .inr (.inl ⟨h₂, if_pos h₂⟩)
    · rw [if_neg h₂]
      by_cases hs : m w.p = MPBUS ∨ m w.p = MPIOINTR ∨ m w.p = MPLINTR
      · exact .inr (.inr (.inl ⟨hs, if_pos hs⟩))
      · refine .inr (.inr (.inr ⟨?_, if_neg hs⟩))
        simp only [known, Bool.or_eq_false_iff, beq_eq_false_iff_ne]
        tauto

theorem entry_p_le (m : Mem) (w : Walk) : w.p ≤ (entry m w).p := by
  rcases entry_cases m w with ⟨-, he⟩ | ⟨-, he⟩ | ⟨-, he⟩ | ⟨-, he⟩ <;> rw [he] <;> simp [sizeofMpproc, sizeofMpioapic]

theorem entry_p_of_known (hk : known (m w.p) = true) : w.p + 8 ≤ (entry m w).p := by
  rcases entry_cases m w with ⟨-, he⟩ | ⟨-, he⟩ | ⟨-, he⟩ | ⟨hu, -⟩
  · rw [he]
    simp [sizeofMpproc]
  · rw [he, sizeofMpioapic]
  · rw [he]
  · rw [hk] at hu
    cases hu

theorem entry_of_unknown (hk : known (m w.p) = false) : entry m w = { w with ismp := false } := by
  rcases entry_cases m w with ⟨h, -⟩ | ⟨h, -⟩ | ⟨h, -⟩ | ⟨-, he⟩
  · simp [known, h] at hk
  · simp [known, h] at hk
  · rcases h with h | h | h <;> simp [known, h] at hk
  · exact he

theorem entry_cpus_le (h : w.cpus.length ≤ NCPU) : (entry m w).cpus.length ≤ NCPU := by
  rcases entry_cases m w with ⟨-, he⟩ | ⟨-, he⟩ | ⟨-, he⟩ | ⟨-, he⟩ <;> rw [he]
  · split_ifs with hlt
    · simp only [List.length_append, List.length_singleton]
      omega
    · exact h
  all_goals exact h

theorem entry_congr (h₀ : m₁ w.p = m₂ w.p) (h₁ : m₁ (w.p + 1) = m₂ (w.p + 1)) : entry m₁ w = entry m₂ w := by
  simp only [entry, h₀, h₁]

end Entry

/-!
## The loop
-/

section Loop

variable {m m₁ m₂ : Mem} {e : Nat} {w : Walk}

theorem entryLoop_eq_none_iff (fuel : Nat) (w : Walk) :
    entryLoop m e fuel w = none ↔ ∀ j ≤ fuel, ((entry m)^[j] w).p < e := by
  induction fuel generalizing w with
  | zero =>
      simp only [entryLoop, Nat.le_zero, forall_eq, Function.iterate_zero, id]
      split <;> simp_all
  | succ fuel ih =>
      simp only [entryLoop]
      split
      · rename_i hp
        rw [ih]
        constructor
        · intro h j hj
          cases j with
          | zero => exact hp
          | succ j =>
              rw [Function.iterate_succ_apply]
              exact h j (by omega)
        · intro h j hj
          have := h (j + 1) (by omega)
          rwa [Function.iterate_succ_apply] at this
      · rename_i hp
        simp only [reduceCtorEq, false_iff, not_forall]
        exact ⟨0, Nat.zero_le _, hp⟩

theorem iterate_p_mono (m : Mem) (w : Walk) {j k : Nat} (h : j ≤ k) :
    ((entry m)^[j] w).p ≤ ((entry m)^[k] w).p := by
  induction k, h using Nat.le_induction with
  | base => exact le_rfl
  | succ k _ ih =>
      rw [Function.iterate_succ_apply']
      exact ih.trans (entry_p_le m _)

theorem iterate_of_unknown (hk : known (m w.p) = false) (k : Nat) :
    (entry m)^[k + 1] w = { w with ismp := false } := by
  induction k with
  | zero => exact entry_of_unknown hk
  | succ k ih =>
      rw [Function.iterate_succ_apply', ih]
      exact entry_of_unknown hk

theorem entryLoop_spins (hp : w.p < e) (hk : known (m w.p) = false) (fuel : Nat) :
    entryLoop m e fuel w = none := by
  rw [entryLoop_eq_none_iff]
  intro j _
  cases j with
  | zero => exact hp
  | succ j =>
      rw [iterate_of_unknown hk j]
      exact hp

theorem iterate_p_ge (hknown : ∀ k, ((entry m)^[k] w).p < e → known (m ((entry m)^[k] w).p) = true) :
    ∀ j, (∀ i < j, ((entry m)^[i] w).p < e) → w.p + 8 * j ≤ ((entry m)^[j] w).p := by
  intro j
  induction j with
  | zero => simp
  | succ j ih =>
      intro hbelow
      have hj := ih fun i hi => hbelow i (by omega)
      have hstep := entry_p_of_known (hknown j (hbelow j (by omega)))
      rw [Function.iterate_succ_apply']
      omega

theorem entryLoop_ends_iff (m : Mem) (e : Nat) (w : Walk) :
    (∃ fuel w', entryLoop m e fuel w = some w') ↔
      ∀ k, ((entry m)^[k] w).p < e → known (m ((entry m)^[k] w).p) = true := by
  constructor
  · rintro ⟨fuel, w', hend⟩ k hk
    by_contra hu
    rw [Bool.not_eq_true] at hu
    -- before the `k`th turn `p` was lower, and after it `p` stays
    have hall : ∀ j, ((entry m)^[j] w).p < e := by
      intro j
      rcases Nat.lt_or_ge k j with hkj | hjk
      · obtain ⟨i, rfl⟩ := Nat.exists_eq_add_of_lt hkj
        rw [show k + i + 1 = i + 1 + k by omega, Function.iterate_add_apply, iterate_of_unknown hu]
        exact hk
      · exact (iterate_p_mono m w hjk).trans_lt hk
    rw [(entryLoop_eq_none_iff fuel w).mpr fun j _ => hall j] at hend
    cases hend
  · intro hknown
    by_cases hreach : ∃ j, e ≤ ((entry m)^[j] w).p
    · obtain ⟨j, hj⟩ := hreach
      cases hl : entryLoop m e j w with
      | none =>
          have := (entryLoop_eq_none_iff j w).mp hl j le_rfl
          omega
      | some w' => exact ⟨j, w', hl⟩
    · -- otherwise `e` turns would take `p` past `e`
      simp only [not_exists, Nat.not_le] at hreach
      have := iterate_p_ge hknown e fun i _ => hreach i
      have := hreach e
      omega

theorem entryLoop_cpus_le {fuel : Nat} {w w' : Walk} (h : entryLoop m e fuel w = some w')
    (hw : w.cpus.length ≤ NCPU) : w'.cpus.length ≤ NCPU := by
  induction fuel generalizing w with
  | zero =>
      simp only [entryLoop] at h
      split at h
      · cases h
      · cases h
        exact hw
  | succ fuel ih =>
      simp only [entryLoop] at h
      split at h
      · exact ih h (entry_cpus_le hw)
      · cases h
        exact hw

theorem entryLoop_congr (fuel : Nat) (w : Walk) (h : ∀ a, w.p ≤ a → a ≤ e → m₁ a = m₂ a) :
    entryLoop m₁ e fuel w = entryLoop m₂ e fuel w := by
  induction fuel generalizing w with
  | zero => rfl
  | succ fuel ih =>
      simp only [entryLoop]
      split
      · rename_i hp
        -- the turn at `p < e` reads `p` and `p + 1 ≤ e`
        have hturn : entry m₁ w = entry m₂ w := entry_congr (h _ le_rfl hp.le) (h _ (by omega) (by omega))
        rw [hturn]
        exact ih _ fun a ha hae => h a ((entry_p_le m₂ w).trans ha) hae
      · rfl

end Loop

/-!
## `mpinit`
-/

section Mpinit

variable {fuel : Nat} {m : Mem} {mp : Option Mp} {conf : Nat}

theorem mpinit_of_mpconfig (h : mpconfig m mp = some conf) (fuel : Nat) :
    mpinit fuel m mp =
      (entryLoop m (conf + length m conf) fuel ⟨conf + sizeofMpconf, [], 0, true⟩).map fun w =>
        if !w.ismp then .error "Didn't find a suitable machine" else .ok (lapicaddr m conf, w) := by
  unfold mpinit
  rw [h]

theorem mpinit_ends_iff (h : mpconfig m mp = some conf) :
    (∃ fuel r, mpinit fuel m mp = some r) ↔
      ∀ k, ((entry m)^[k] ⟨conf + sizeofMpconf, [], 0, true⟩).p < conf + length m conf →
        known (m ((entry m)^[k] ⟨conf + sizeofMpconf, [], 0, true⟩).p) = true := by
  rw [← entryLoop_ends_iff]
  simp only [mpinit_of_mpconfig h, Option.map_eq_some_iff]
  constructor
  · rintro ⟨fuel, -, w, hw, -⟩
    exact ⟨fuel, w, hw⟩
  · rintro ⟨fuel, w, hw⟩
    exact ⟨fuel, _, w, hw, rfl⟩

/-- Memory holding at `0xF0000` a configuration table of one entry: the
header (`"PCMP"`, `length` 45, version 1, checksum byte `c`), the entry's
type byte `t`, and then `b`, the byte after the table. -/
def oneEntryTable (t c b : UInt8) : Mem := fun a =>
  if 0xF0000 ≤ a then
    ([0x50, 0x43, 0x4D, 0x50, 45, 0, 1, c] ++ List.replicate 36 0 ++ [t, b]).getD (a - 0xF0000) 0
  else 0

theorem mpinit_spins_on_unknown_entry :
    mpconfig (oneEntryTable 5 157 0) (some ⟨0xF0000⟩) = some 0xF0000 ∧
    (∀ fuel, mpinit fuel (oneEntryTable 5 157 0) (some ⟨0xF0000⟩) = none) ∧
    (mpinit 1 (oneEntryTable MPPROC 162 0) (some ⟨0xF0000⟩)).map (·.toOption.map (·.2.cpus)) =
      some (some [0]) ∧
    (mpinit 1 (oneEntryTable MPPROC 162 7) (some ⟨0xF0000⟩)).map (·.toOption.map (·.2.cpus)) =
      some (some [7]) := by
  have hspin : mpconfig (oneEntryTable 5 157 0) (some ⟨0xF0000⟩) = some 0xF0000 := by decide
  refine ⟨hspin, fun fuel => ?_, by decide, by decide⟩
  rw [mpinit_of_mpconfig hspin, entryLoop_spins (by decide) (by decide) fuel, Option.map_none]

theorem mpinit_cpus_le {lapic : Nat} {w : Walk} (h : mpinit fuel m mp = some (.ok (lapic, w))) :
    w.cpus.length ≤ NCPU := by
  cases hc : mpconfig m mp with
  | none =>
      unfold mpinit at h
      rw [hc] at h
      cases h
  | some conf =>
      rw [mpinit_of_mpconfig hc, Option.map_eq_some_iff] at h
      obtain ⟨w', hw', he⟩ := h
      split at he
      · cases he
      · cases he
        exact entryLoop_cpus_le hw' (Nat.zero_le _)

end Mpinit

end Boot

end Xv6

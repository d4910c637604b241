import Mathlib.Data.List.Nodup

/-!
# Circular doubly linked lists through link arrays

Nodes are linked by two arrays, `next` and `prev`.  `Chain L a l z` says that
following `next` from `a` visits the nodes of `l` in order and then `z`, and
that `prev` leads back the same way.  A circular list with a sentinel `h`
holding the nodes `l` is `Chain L h l h`.

The loop `for(p = h->next; p != h; p = p->next)` that stops at the first node
passing a test is `scan`, run with fuel: on a chain it finds what `List.find?`
finds, and run along `prev` it finds what `List.find?` finds in the reversed
list.  Taking a node out (`unlink`) and putting it back after the sentinel
(`pushFront`) moves it to the front.
-/

namespace DList

variable {α : Type}

/-- The two link arrays. -/
structure Links (α : Type) where
  next : α → α
  prev : α → α

/-- Following `next` from `a` visits `l` and then `z`, and `prev` leads back. -/
def Chain (L : Links α) : α → List α → α → Prop
  | a, [], z => L.next a = z ∧ L.prev z = a
  | a, x :: l, z => L.next a = x ∧ L.prev x = a ∧ Chain L x l z

/-- The links walked backwards. -/
def Links.swap (L : Links α) : Links α :=
  ⟨L.prev, L.next⟩

variable {L L' : Links α} {a z : α}

theorem chain_append {l₁ l₂ : List α} {x : α} :
    Chain L a (l₁ ++ x :: l₂) z ↔ Chain L a l₁ x ∧ Chain L x l₂ z := by
  induction l₁ generalizing a with
  | nil => simp only [List.nil_append, Chain, and_assoc]
  | cons y l₁ ih => simp only [List.cons_append, Chain, ih, and_assoc]

theorem chain_reverse {l : List α} (h : Chain L a l z) : Chain L.swap z l.reverse a := by
  induction l generalizing a with
  | nil => exact ⟨h.2, h.1⟩
  | cons x l ih =>
      obtain ⟨hnext, hprev, hrest⟩ := h
      rw [List.reverse_cons]
      exact chain_append.mpr ⟨ih hrest, hprev, hnext⟩

theorem next_mem {l : List α} (h : Chain L a l z) : L.next a ∈ l ++ [z] := by
  cases l with
  | nil => simp [h.1]
  | cons x l => simp [h.1]

theorem prev_mem {l : List α} (h : Chain L a l z) : L.prev z ∈ a :: l := by
  induction l generalizing a with
  | nil => simp [h.2]
  | cons x l ih => exact List.mem_cons_of_mem a (ih h.2.2)

theorem Chain.congr {l : List α} (h : Chain L a l z)
    (hnext : ∀ x ∈ a :: l, L'.next x = L.next x) (hprev : ∀ x ∈ l ++ [z], L'.prev x = L.prev x) :
    Chain L' a l z := by
  induction l generalizing a with
  | nil =>
      refine ⟨?_, ?_⟩
      · rw [hnext a List.mem_cons_self]
        exact h.1
      · rw [hprev z (by simp)]
        exact h.2
  | cons x l ih =>
      obtain ⟨hn, hp, hrest⟩ := h
      refine ⟨?_, ?_, ?_⟩
      · rw [hnext a List.mem_cons_self]
        exact hn
      · rw [hprev x (by simp)]
        exact hp
      · exact ih hrest (fun y hy => hnext y (List.mem_cons_of_mem a hy))
          (fun y hy => hprev y (List.mem_cons_of_mem x hy))

theorem next_prev {l : List α} (h : Chain L a l z) : ∀ x ∈ l ++ [z], L.next (L.prev x) = x := by
  induction l generalizing a with
  | nil =>
      intro x hx
      rw [List.nil_append, List.mem_singleton] at hx
      subst hx
      rw [h.2, h.1]
  | cons y l ih =>
      intro x hx
      rcases List.mem_cons.mp hx with rfl | hx
      · rw [h.2.1, h.1]
      · exact ih h.2.2 x hx

theorem prev_next {l : List α} (h : Chain L a l z) : ∀ x ∈ a :: l, L.prev (L.next x) = x := by
  induction l generalizing a with
  | nil =>
      intro x hx
      rw [List.mem_singleton] at hx
      subst hx
      rw [h.1, h.2]
  | cons y l ih =>
      intro x hx
      rcases List.mem_cons.mp hx with rfl | hx
      · rw [h.1, h.2.1]
      · exact ih h.2.2 x hx

/-!
## The loop over the list
-/

/-- The loop from `p` along `step` to the sentinel `z`, stopping at the first
node that passes `test`: `some (some x)` at such a node, `some none` at `z`,
and `none` when the fuel runs out. -/
def scan [DecidableEq α] (step : α → α) (z : α) (test : α → Bool) : Nat → α → Option (Option α)
  | 0, _ => none
  | fuel + 1, p =>
      if p = z then some none
      else if test p then some (some p)
      else scan step z test fuel (step p)

theorem scan_test [DecidableEq α] {step : α → α} {test : α → Bool} {fuel : Nat} {p x : α}
    (h : scan step z test fuel p = some (some x)) : test x = true := by
  induction fuel generalizing p with
  | zero => cases h
  | succ fuel ih =>
      simp only [scan] at h
      split at h
      · cases h
      · split at h
        · rename_i ht
          cases h
          exact ht
        · exact ih h

theorem scan_chain [DecidableEq α] {l : List α} (test : α → Bool) (h : Chain L a l z)
    (hz : z ∉ l) {fuel : Nat} (hfuel : l.length < fuel) :
    scan L.next z test fuel (L.next a) = some (l.find? test) := by
  induction l generalizing a fuel with
  | nil =>
      obtain ⟨fuel, rfl⟩ : ∃ f, fuel = f + 1 := ⟨fuel - 1, by simp at hfuel; omega⟩
      rw [h.1, scan, if_pos rfl, List.find?_nil]
  | cons x l ih =>
      obtain ⟨fuel, rfl⟩ : ∃ f, fuel = f + 1 := ⟨fuel - 1, by simp at hfuel; omega⟩
      have hxz : x ≠ z := fun hx => hz (hx ▸ List.mem_cons_self)
      rw [h.1, scan, if_neg hxz]
      by_cases ht : test x = true
      · rw [if_pos ht, List.find?_cons_of_pos ht]
      · rw [if_neg ht, List.find?_cons_of_neg ht]
        refine ih h.2.2 (fun hz' => hz (List.mem_cons_of_mem x hz')) ?_
        simp only [List.length_cons] at hfuel
        omega

/-!
## Moving a node to the front
-/

/-- `b->next->prev = b->prev; b->prev->next = b->next`. -/
def Links.unlink (L : Links α) [DecidableEq α] (b : α) : Links α :=
  let prev := Function.update L.prev (L.next b) (L.prev b)
  ⟨Function.update L.next (prev b) (L.next b), prev⟩

/-- `b->next = h->next; b->prev = h; h->next->prev = b; h->next = b`. -/
def Links.pushFront (L : Links α) [DecidableEq α] (h b : α) : Links α :=
  let next := Function.update L.next b (L.next h)
  let prev := Function.update L.prev b h
  ⟨Function.update next h b, Function.update prev (next h) b⟩

variable [DecidableEq α]

theorem unlink_eq (L : Links α) (b : α) :
    L.unlink b = ⟨Function.update L.next (L.prev b) (L.next b),
      Function.update L.prev (L.next b) (L.prev b)⟩ := by
  have hb : Function.update L.prev (L.next b) (L.prev b) b = L.prev b := by
    by_cases hnb : b = L.next b
    · rw [← hnb, Function.update_self]
    · rw [Function.update_of_ne hnb]
  simp only [Links.unlink, hb]

theorem chain_unlink {l₁ l₂ : List α} {b : α} (h : Chain L a (l₁ ++ b :: l₂) z)
    (hnd : (a :: (l₁ ++ b :: l₂)).Nodup) (hz : z ∉ l₁ ++ b :: l₂) :
    Chain (L.unlink b) a (l₁ ++ l₂) z := by
  rw [unlink_eq]
  induction l₁ generalizing a with
  | nil =>
      obtain ⟨hab, hba, hrest⟩ := h
      rw [hba]
      have ha : a ∉ b :: l₂ := (List.nodup_cons.mp hnd).1
      cases l₂ with
      | nil =>
          -- `b` was the last node: `a` now links to `z`
          exact ⟨by simp [hrest.1], by simp [hrest.1]⟩
      | cons y l₃ =>
          obtain ⟨hby, hyb, hrest'⟩ := hrest
          have hy : y ∉ l₃ ++ [z] := by
            have hnd' := (List.nodup_cons.mp (List.nodup_cons.mp hnd).2).2
            simp only [List.mem_append, List.mem_singleton, not_or]
            refine ⟨(List.nodup_cons.mp hnd').1, fun hyz => hz ?_⟩
            simp [hyz]
          refine ⟨by simp [hby], by simp [hby], hrest'.congr ?_ ?_⟩
          · intro x hx
            have hxa : x ≠ a := fun hxa => ha (hxa ▸ List.mem_cons_of_mem b hx)
            dsimp only
            rw [Function.update_of_ne hxa]
          · intro x hx
            have hxy : x ≠ y := fun hxy => hy (hxy ▸ hx)
            dsimp only
            rw [hby, Function.update_of_ne hxy]
  | cons x l₁ ih =>
      obtain ⟨hax, hxa, hrest⟩ := h
      have ha : a ∉ x :: (l₁ ++ b :: l₂) := (List.nodup_cons.mp hnd).1
      have hnd' := (List.nodup_cons.mp hnd).2
      -- `b`'s neighbours lie on either side of it, away from `a` and `x`
      obtain ⟨hleft, hright⟩ := chain_append.mp hrest
      have hP : L.prev b ≠ a := by
        intro hP
        apply ha
        have := prev_mem hleft
        rw [hP] at this
        simp only [List.mem_cons, List.mem_append] at this ⊢
        tauto
      have hN : L.next b ≠ x := by
        intro hN
        have hmem := next_mem hright
        rw [hN] at hmem
        have hx : x ∉ l₁ ++ b :: l₂ := (List.nodup_cons.mp hnd').1
        simp only [List.mem_append, List.mem_singleton] at hmem
        rcases hmem with hmem | hmem
        · exact hx (by simp [hmem])
        · exact hz (by rw [← hmem]; simp)
      refine ⟨?_, ?_, ih hrest hnd' (fun hz' => hz (List.mem_cons_of_mem x hz'))⟩
      · dsimp only
        rw [Function.update_of_ne (Ne.symm hP)]
        exact hax
      · dsimp only
        rw [Function.update_of_ne (Ne.symm hN)]
        exact hxa

theorem chain_pushFront {l : List α} {b : α} (h : Chain L a l a) (hnd : (a :: l).Nodup)
    (hb : b ∉ a :: l) : Chain (L.pushFront a b) a (b :: l) a := by
  have hba : b ≠ a := fun hba => hb (hba ▸ List.mem_cons_self)
  have hnext : Function.update L.next b (L.next a) a = L.next a :=
    Function.update_of_ne (Ne.symm hba) _ _
  have hNb : L.next a ≠ b := by
    intro hN
    have := next_mem h
    rw [hN] at this
    simp only [List.mem_append, List.mem_singleton] at this
    rcases this with hmem | hmem
    · exact hb (List.mem_cons_of_mem a hmem)
    · exact hba hmem
  simp only [Links.pushFront, hnext]
  refine ⟨by simp, ?_, ?_⟩
  · dsimp only
    rw [Function.update_of_ne (Ne.symm hNb), Function.update_self]
  cases l with
  | nil =>
      -- the list was empty: `b` is its only node
      have hN : L.next a = a := h.1
      exact ⟨by simp [hba, hN], by simp [hN]⟩
  | cons x l =>
      obtain ⟨hax, hxa, hrest⟩ := h
      have hx : x ∉ l ++ [a] := by
        have := List.nodup_cons.mp (List.nodup_cons.mp hnd).2
        simp only [List.mem_append, List.mem_singleton, not_or]
        exact ⟨this.1, fun hxa' => (List.nodup_cons.mp hnd).1 (by simp [hxa'])⟩
      refine ⟨by simp [hba, hax], by simp [hax], hrest.congr ?_ ?_⟩
      · intro y hy
        have hyb : y ≠ b := fun hyb => hb (by simp [← hyb, hy])
        have hya : y ≠ a := fun hya => (List.nodup_cons.mp hnd).1 (by simp [← hya, hy])
        simp [hyb, hya]
      · intro y hy
        have hyx : y ≠ x := fun hyx => hx (hyx ▸ hy)
        have hyb : y ≠ b := by
          intro hyb
          simp only [List.mem_append, List.mem_singleton] at hy
          rcases hy with hy | hy
          · exact hb (by simp [← hyb, hy])
          · exact hba (hyb ▸ hy)
        simp [hax, hyx, hyb]

theorem chain_moveFront {l : List α} {b : α} (h : Chain L a l a) (hnd : (a :: l).Nodup)
    (hb : b ∈ l) : Chain ((L.unlink b).pushFront a b) a (b :: l.erase b) a := by
  obtain ⟨l₁, l₂, rfl⟩ := List.append_of_mem hb
  have hnd' := (List.nodup_cons.mp hnd).2
  have hb₁ : b ∉ l₁ := fun hb₁ => List.disjoint_of_nodup_append hnd' hb₁ List.mem_cons_self
  have herase : (l₁ ++ b :: l₂).erase b = l₁ ++ l₂ := by
    rw [List.erase_append_right _ hb₁, List.erase_cons_head]
  rw [herase]
  have hsub : (a :: (l₁ ++ l₂)).Nodup :=
    hnd.sublist (List.Sublist.cons_cons a ((List.sublist_cons_self b l₂).append_left l₁))
  apply chain_pushFront (chain_unlink h hnd (List.nodup_cons.mp hnd).1) hsub
  intro hmem
  rcases List.mem_cons.mp hmem with hab | hmem
  · exact (List.nodup_cons.mp hnd).1 (by simp [← hab])
  · rw [List.mem_append] at hmem
    rcases hmem with hmem | hmem
    · exact hb₁ hmem
    · exact (List.nodup_cons.mp (List.nodup_middle.mp hnd')).1 (List.mem_append_right l₁ hmem)

theorem chain_foldl_pushFront {l bs : List α} (h : Chain L a l a) (hnd : (a :: l).Nodup)
    (hbs : bs.Nodup) (hfresh : ∀ b ∈ bs, b ∉ a :: l) :
    Chain (bs.foldl (fun L b => L.pushFront a b) L) a (bs.reverse ++ l) a := by
  induction bs generalizing L l with
  | nil => exact h
  | cons b bs ih =>
      have hb := hfresh b List.mem_cons_self
      have hnd' : (a :: b :: l).Nodup := by
        refine List.nodup_cons.mpr ⟨?_, List.nodup_cons.mpr ⟨fun hbl => hb ?_, (List.nodup_cons.mp hnd).2⟩⟩
        · rintro (_ | ⟨_, hal⟩)
          · exact hb List.mem_cons_self
          · exact (List.nodup_cons.mp hnd).1 hal
        · exact List.mem_cons_of_mem a hbl
      have hrest := ih (chain_pushFront h hnd hb) hnd' (List.nodup_cons.mp hbs).2 ?_
      · rw [List.foldl_cons, List.reverse_cons, List.append_assoc]
        exact hrest
      · intro c hc hmem
        rcases List.mem_cons.mp hmem with hca | hmem
        · exact hfresh c (List.mem_cons_of_mem b hc) (hca ▸ List.mem_cons_self)
        · rcases List.mem_cons.mp hmem with hcb | hmem
          · exact (List.nodup_cons.mp hbs).1 (hcb ▸ hc)
          · exact hfresh c (List.mem_cons_of_mem b hc) (List.mem_cons_of_mem a hmem)

/-!
## What the loop finds
-/

omit [DecidableEq α] in
theorem find?_of_imp {p q : α → Bool} {l : List α} {y : α} (h : l.find? p = some y)
    (hy : q y = true) (himp : ∀ x ∈ l, q x = true → p x = true) : l.find? q = some y := by
  obtain ⟨-, as, bs, rfl, has⟩ := List.find?_eq_some_iff_append.mp h
  refine List.find?_eq_some_iff_append.mpr ⟨hy, as, bs, rfl, fun x hx => ?_⟩
  have hpx := has x hx
  cases hqx : q x with
  | false => rfl
  | true =>
      have := himp x (List.mem_append_left _ hx) hqx
      simp [this] at hpx

omit [DecidableEq α] in
theorem find?_of_unique {p : α → Bool} {l : List α} {b : α} (hb : b ∈ l) (hpb : p b = true)
    (hu : ∀ x ∈ l, p x = true → x = b) : l.find? p = some b := by
  cases h : l.find? p with
  | none => exact absurd hpb (List.find?_eq_none.mp h b hb)
  | some y => rw [hu y (List.mem_of_find?_eq_some h) (List.find?_some h)]

theorem find?_erase_of_false {p : α → Bool} {b : α} (hb : p b = false) (l : List α) :
    (l.erase b).find? p = l.find? p := by
  induction l with
  | nil => rfl
  | cons x l ih =>
      by_cases hx : x = b
      · subst hx
        rw [List.erase_cons_head, List.find?_cons_of_neg (by simp [hb])]
      · rw [List.erase_cons_tail (by simpa using hx)]
        by_cases hpx : p x = true
        · rw [List.find?_cons_of_pos hpx, List.find?_cons_of_pos hpx]
        · rw [List.find?_cons_of_neg hpx, List.find?_cons_of_neg hpx, ih]

end DList

import Xv6.User.ShGrammar

/-!
# `parsecmd`

`parsecmd` returns on a line exactly when the line's tokens are a `line` of
the grammar, and what it returns is the derivation's tree.  `nulterminate`
then writes a `NUL` at the end of each word the tree points to.  A word is a
run of word bytes that ends where a byte that is not one stands, so none of
these `NUL`s lands inside a word, and each word reads back as a C string.
-/

namespace Xv6

namespace Sh

/-- The words a tree points to, as `(start, end)` in the line: the
arguments of each `execcmd` and the file of each redirection. -/
def Cmd.words : Cmd → List (Nat × Nat)
  | .exec argv => argv
  | .redir cmd file efile _ _ => cmd.words ++ [(file, efile)]
  | .pipe left right => left.words ++ right.words
  | .list left right => left.words ++ right.words
  | .back cmd => cmd.words

/-- `b` with a `NUL` written at each position of `is` in turn. -/
def setNuls (b : List Char) (is : List Nat) : List Char :=
  is.foldl (fun b i => b.set i '\x00') b

/-- The C string at `q`: the bytes from `q` up to the first `NUL`. -/
def cstr (b : List Char) (q : Nat) : List Char :=
  (b.drop q).takeWhile (· ≠ '\x00')

/-- `w` is where a word token of `ts` stands. -/
def WordOf (ts : List Token) (w : Nat × Nat) : Prop :=
  ∃ tk ∈ ts, tk.ret = 'a' ∧ (tk.q, tk.eq) = w

/-!
## The `NUL`s `nulterminate` writes
-/

theorem setNuls_append (b : List Char) (is js : List Nat) :
    setNuls b (is ++ js) = setNuls (setNuls b is) js := by
  simp only [setNuls, List.foldl_append]

theorem nulterminate_eq (b : List Char) (c : Cmd) : nulterminate b c = setNuls b (c.words.map Prod.snd) := by
  induction c generalizing b with
  | exec argv => simp only [nulterminate, Cmd.words, setNuls, List.foldl_map]
  | redir cmd file efile mode fd ih =>
    rw [nulterminate, ih, Cmd.words, List.map_append, setNuls_append]
    rfl
  | pipe left right ihl ihr => rw [nulterminate, ihl, ihr, Cmd.words, List.map_append, setNuls_append]
  | list left right ihl ihr => rw [nulterminate, ihl, ihr, Cmd.words, List.map_append, setNuls_append]
  | back cmd ih => rw [nulterminate, ih, Cmd.words]

theorem getElem?_setNuls (b : List Char) (is : List Nat) (i : Nat) :
    (setNuls b is)[i]? = if i ∈ is then b[i]?.map fun _ => '\x00' else b[i]? := by
  induction is generalizing b with
  | nil => simp [setNuls]
  | cons j is ih =>
    have hstep : setNuls b (j :: is) = setNuls (b.set j '\x00') is := rfl
    rw [hstep, ih, List.getElem?_set]
    by_cases hi : i ∈ is
    · by_cases hj : j = i
      · subst hj
        by_cases hlt : j < b.length <;> simp [hi, hlt]
      · simp [hi, hj]
    · by_cases hj : j = i
      · subst hj
        by_cases hlt : j < b.length <;> simp [hi, hlt]
      · simp [hi, hj, Ne.symm hj]

theorem takeWhile_eq_take {α : Type} {p : α → Bool} {l : List α} {n : Nat}
    (h : ∀ i < n, ∃ a, l[i]? = some a ∧ p a = true) (hn : ∀ a ∈ l[n]?, p a = false) :
    l.takeWhile p = l.take n := by
  induction l generalizing n with
  | nil => simp
  | cons a l ih =>
    cases n with
    | zero =>
      rw [List.takeWhile_cons_of_neg (by simpa using hn a rfl), List.take_zero]
    | succ n =>
      obtain ⟨a', ha', hpa⟩ := h 0 (Nat.succ_pos n)
      cases ha'
      rw [List.takeWhile_cons_of_pos hpa, List.take_succ_cons,
        ih (fun i hi => by simpa using h (i + 1) (Nat.succ_lt_succ hi)) (by simpa using hn)]

theorem cstr_setNuls {b : List Char} {is : List Nat} {q eq : Nat} (hle : q ≤ eq)
    (hbytes : ∀ i, q ≤ i → i < eq → i ∉ is ∧ ∃ c, b[i]? = some c ∧ c ≠ '\x00') (hend : eq ∈ is) :
    cstr (setNuls b is) q = (b.drop q).take (eq - q) := by
  have hkeep : ∀ i < eq - q, (setNuls b is)[q + i]? = b[q + i]? := by
    intro i hi
    rw [getElem?_setNuls, if_neg (hbytes (q + i) (by omega) (by omega)).1]
  rw [cstr, takeWhile_eq_take (n := eq - q)]
  · apply List.ext_getElem?
    intro i
    rw [List.getElem?_take, List.getElem?_take, List.getElem?_drop, List.getElem?_drop]
    split
    · exact hkeep i ‹_›
    · rfl
  · intro i hi
    obtain ⟨-, c, hc, hnul⟩ := hbytes (q + i) (by omega) (by omega)
    exact ⟨c, by rw [List.getElem?_drop, hkeep i hi, hc], by simpa using hnul⟩
  · intro a ha
    rw [List.getElem?_drop, Nat.add_sub_cancel' hle, getElem?_setNuls, if_pos hend] at ha
    cases hb : b[eq]? with
    | none => simp [hb] at ha
    | some c =>
      simp only [hb, Option.map_some, Option.mem_def, Option.some.injEq] at ha
      subst ha
      rfl

/-!
## The words of a derivation

Each word a derived tree points to is a word token of the line.
-/

theorem Redirs.suffix {ts rest : List Token} {rs : List Redir} (h : Redirs ts rs rest) : rest <:+ ts := by
  induction h with
  | nil ts => exact List.suffix_refl ts
  | cons _ _ _ ih => exact ih.trans ((List.suffix_cons _ _).trans (List.suffix_cons _ _))

theorem Words.suffix {ts rest : List Token} {ws : List (Nat × Nat)} {rs : List Redir} (h : Words ts ws rs rest) :
    rest <:+ ts := by
  induction h with
  | nil ts => exact List.suffix_refl ts
  | cons _ hrs _ ih => exact ih.trans (hrs.suffix.trans (List.suffix_cons _ _))

theorem Backs.suffix {ts rest : List Token} {c c' : Cmd} (h : Backs ts c c' rest) : rest <:+ ts := by
  induction h with
  | nil ts c => exact List.suffix_refl ts
  | cons _ _ ih => exact ih.trans (List.suffix_cons _ _)

theorem Derives.suffix {N : NT} {ts rest : List Token} {c : Cmd} (h : Derives N ts c rest) : rest <:+ ts := by
  induction h with
  | block _ _ _ hrs ih => exact hrs.suffix.trans ((List.suffix_cons _ _).trans (ih.trans (List.suffix_cons _ _)))
  | simple hrs hw _ => exact hw.suffix.trans hrs.suffix
  | pipeOne _ ih => exact ih
  | pipeMore _ _ _ ih₁ ih₂ => exact ih₂.trans ((List.suffix_cons _ _).trans ih₁)
  | lineOne _ hb ih => exact hb.suffix.trans ih
  | lineMore _ hb _ _ ih₁ ih₂ => exact ih₂.trans ((List.suffix_cons _ _).trans (hb.suffix.trans ih₁))

theorem WordOf.mono {ts ts' : List Token} {w : Nat × Nat} (h : WordOf ts w) (hsuf : ts <:+ ts') : WordOf ts' w := by
  obtain ⟨tk, htk, ha, hw⟩ := h
  exact ⟨tk, hsuf.subset htk, ha, hw⟩

theorem words_redirect (tok : Char) (c : Cmd) (q eq : Nat) :
    ∀ w ∈ (redirect tok c q eq).words, w ∈ c.words ∨ w = (q, eq) := by
  intro w hw
  unfold redirect at hw
  -- `<`, `>` and `>>` wrap the command, any other token leaves it
  split at hw
  · simpa [Cmd.words] using hw
  · simpa [Cmd.words] using hw
  · simpa [Cmd.words] using hw
  · exact .inl hw

theorem words_wrap (c : Cmd) (rs : List Redir) :
    ∀ w ∈ (wrap c rs).words, w ∈ c.words ∨ ∃ r ∈ rs, (r.q, r.eq) = w := by
  induction rs generalizing c with
  | nil => exact fun w hw => .inl hw
  | cons r rs ih =>
    intro w hw
    rw [wrap_cons] at hw
    rcases ih _ w hw with hw | ⟨r', hr', rfl⟩
    · rcases words_redirect r.tok c r.q r.eq w hw with hw | rfl
      · exact .inl hw
      · exact .inr ⟨r, List.mem_cons_self, rfl⟩
    · exact .inr ⟨r', List.mem_cons_of_mem _ hr', rfl⟩

theorem Redirs.wordOf {ts rest : List Token} {rs : List Redir} (h : Redirs ts rs rest) :
    ∀ r ∈ rs, WordOf ts (r.q, r.eq) := by
  induction h with
  | nil => exact fun r hr => absurd hr List.not_mem_nil
  | @cons op file ts rest rs _ hfile _ ih =>
    intro r hr
    rcases List.mem_cons.mp hr with rfl | hr
    · exact ⟨file, by simp, hfile, rfl⟩
    · exact (ih r hr).mono ((List.suffix_cons _ _).trans (List.suffix_cons _ _))

theorem Words.wordOf {ts rest : List Token} {ws : List (Nat × Nat)} {rs : List Redir} (h : Words ts ws rs rest) :
    (∀ w ∈ ws, WordOf ts w) ∧ ∀ r ∈ rs, WordOf ts (r.q, r.eq) := by
  induction h with
  | nil => exact ⟨fun w hw => absurd hw List.not_mem_nil, fun r hr => absurd hr List.not_mem_nil⟩
  | @cons w ts ts₁ rest argv rs₁ rs hw hrs _ ih =>
    -- what the words after this one and their redirections read lies after it
    have hsuf : ts₁ <:+ w :: ts := hrs.suffix.trans (List.suffix_cons _ _)
    refine ⟨fun w' hw' => ?_, fun r hr => ?_⟩
    · rcases List.mem_cons.mp hw' with rfl | hw'
      · exact ⟨w, List.mem_cons_self, hw, rfl⟩
      · exact (ih.1 w' hw').mono hsuf
    · rcases List.mem_append.mp hr with hr | hr
      · exact (hrs.wordOf r hr).mono (List.suffix_cons _ _)
      · exact (ih.2 r hr).mono hsuf

theorem Backs.words {ts rest : List Token} {c c' : Cmd} (h : Backs ts c c' rest) : c'.words = c.words := by
  induction h with
  | nil => rfl
  | cons _ _ ih => exact ih

theorem Derives.wordOf {N : NT} {ts rest : List Token} {c : Cmd} (h : Derives N ts c rest) :
    ∀ w ∈ c.words, WordOf ts w := by
  induction h with
  | @block lp rp ts ts' rest c rs _ hline _ hrs ih =>
    intro w hw
    rcases words_wrap c rs w hw with hw | ⟨r, hr, rfl⟩
    · exact (ih w hw).mono (List.suffix_cons _ _)
    · exact (hrs.wordOf r hr).mono ((List.suffix_cons _ _).trans (hline.suffix.trans (List.suffix_cons _ _)))
  | @simple ts ts₀ rest rs₀ rs₁ argv hrs hw _ =>
    intro w hw'
    rcases words_wrap _ _ w hw' with hw' | ⟨r, hr, rfl⟩
    · exact (hw.wordOf.1 w hw').mono hrs.suffix
    · rcases List.mem_append.mp hr with hr | hr
      · exact hrs.wordOf r hr
      · exact (hw.wordOf.2 r hr).mono hrs.suffix
  | pipeOne _ ih => exact ih
  | pipeMore hexec _ _ ih₁ ih₂ =>
    intro w hw
    rcases List.mem_append.mp hw with hw | hw
    · exact ih₁ w hw
    · exact (ih₂ w hw).mono ((List.suffix_cons _ _).trans hexec.suffix)
  | lineOne _ hb ih =>
    intro w hw
    rw [hb.words] at hw
    exact ih w hw
  | lineMore hpipe hb _ _ ih₁ ih₂ =>
    intro w hw
    rcases List.mem_append.mp hw with hw | hw
    · rw [hb.words] at hw
      exact ih₁ w hw
    · exact (ih₂ w hw).mono ((List.suffix_cons _ _).trans (hb.suffix.trans hpipe.suffix))

/-!
## `parsecmd`
-/

/-- `parsecmd` returns a tree exactly when the tokens of the line derive it
as a `line`, with nothing after it, and the buffer it returns is the line
after `nulterminate`. -/
theorem parsecmd_ok_iff (b : List Char) (t : Cmd) (b' : List Char) :
    parsecmd b = .ok (t, b') ↔
      Derives .line (tokens (strlen b) (b.take (strlen b))) t [] ∧ b' = nulterminate b t := by
  constructor
  · intro h
    rw [parsecmd] at h
    split at h
    · cases h
    · rename_i cmd ps hle hl
      split at h
      · cases h
      · rename_i hrest
        cases h
        have hd := parseline_sound hl
        have hnil : tokens (strlen b) ps = [] := tokens_eq_nil_iff.mpr (by simpa using hrest)
        dsimp only at hd
        rw [hnil] at hd
        exact ⟨hd, rfl⟩
  · rintro ⟨hd, rfl⟩
    obtain ⟨⟨cmd, ps, hle⟩, hl, hc, ht⟩ := parse_complete hd (fun _ h => by cases h) (b.take (strlen b)) rfl
    simp only [parse] at hl
    dsimp only at hc ht
    subst hc
    rw [parsecmd, hl]
    dsimp only
    rw [if_neg (by simpa using tokens_eq_nil_iff.mp ht)]

theorem strlen_le (b : List Char) : strlen b ≤ b.length :=
  (List.takeWhile_prefix _).length_le

theorem length_take_strlen (b : List Char) : (b.take (strlen b)).length = strlen b := by
  rw [List.length_take, Nat.min_eq_left (strlen_le b)]

theorem not_end_inside {line : List Char} {tk tk' : Token} (htk : tk ∈ tokens line.length line)
    (htk' : tk' ∈ tokens line.length line) (ha : tk.ret = 'a') (ha' : tk'.ret = 'a') (hq : tk.q ≤ tk'.eq) :
    ¬tk'.eq < tk.eq := by
  intro hlt
  obtain ⟨hbytes, hle, -⟩ := tokens_word line (List.suffix_refl line) tk htk ha
  obtain ⟨-, -, hend⟩ := tokens_word line (List.suffix_refl line) tk' htk' ha'
  have hin := hbytes tk'.eq hq hlt
  rw [hend (by omega)] at hin
  cases hin

theorem byte_of_wordByte {b : List Char} {i : Nat} (hi : i < strlen b)
    (h : wordByte ((b.take (strlen b)).getD i '\x00') = true) : ∃ c, b[i]? = some c ∧ c ≠ '\x00' := by
  rw [List.getD_eq_getElem?_getD, List.getElem?_take, if_pos hi] at h
  cases hc : b[i]? with
  | none =>
    rw [hc] at h
    cases h
  | some c =>
    rw [hc] at h
    refine ⟨c, rfl, ?_⟩
    rintro rfl
    cases h

theorem cstr_nulterminate {b : List Char} {t : Cmd}
    (hd : ∀ w ∈ t.words, WordOf (tokens (strlen b) (b.take (strlen b))) w) {w : Nat × Nat} (hw : w ∈ t.words) :
    cstr (nulterminate b t) w.1 = (b.drop w.1).take (w.2 - w.1) := by
  have hlen := length_take_strlen b
  have hword : ∀ w ∈ t.words, ∃ tk ∈ tokens (b.take (strlen b)).length (b.take (strlen b)),
      tk.ret = 'a' ∧ (tk.q, tk.eq) = w := by
    rw [hlen]
    exact hd
  obtain ⟨tk, htk, ha, rfl⟩ := hword w hw
  obtain ⟨-, hqe, heq⟩ := tokens_bounds (b.take (strlen b)) le_rfl tk htk
  obtain ⟨hbytes, -, -⟩ := tokens_word (b.take (strlen b)) (List.suffix_refl _) tk htk ha
  rw [nulterminate_eq]
  refine cstr_setNuls (Nat.le_of_lt hqe) (fun i hqi hie => ⟨?_, ?_⟩) (List.mem_map_of_mem hw)
  · -- no word of the tree ends inside this one
    intro hi
    obtain ⟨w', hw', hend⟩ := List.mem_map.mp hi
    obtain ⟨tk', htk', ha', rfl⟩ := hword w' hw'
    exact not_end_inside htk htk' ha ha' (by simpa [← hend] using hqi) (by simpa [← hend] using hie)
  · exact byte_of_wordByte (by omega) (hbytes i hqi hie)

theorem parsecmd_accepts_grammar (b : List Char) :
    ((∃ r, parsecmd b = .ok r) ↔ ∃ t, Derives .line (tokens (strlen b) (b.take (strlen b))) t []) ∧
    (∀ t b', parsecmd b = .ok (t, b') ↔
      Derives .line (tokens (strlen b) (b.take (strlen b))) t [] ∧ b' = nulterminate b t) ∧
    (∀ t b', parsecmd b = .ok (t, b') → ∀ w ∈ t.words,
      WordOf (tokens (strlen b) (b.take (strlen b))) w ∧ cstr b' w.1 = (b.drop w.1).take (w.2 - w.1)) := by
  refine ⟨⟨?_, ?_⟩, parsecmd_ok_iff b, ?_⟩
  · rintro ⟨⟨t, b'⟩, h⟩
    exact ⟨t, ((parsecmd_ok_iff b t b').mp h).1⟩
  · rintro ⟨t, hd⟩
    exact ⟨(t, nulterminate b t), (parsecmd_ok_iff b t _).mpr ⟨hd, rfl⟩⟩
  · intro t b' h w hw
    obtain ⟨hd, rfl⟩ := (parsecmd_ok_iff b t b').mp h
    exact ⟨hd.wordOf w hw, cstr_nulterminate hd.wordOf hw⟩

end Sh

end Xv6

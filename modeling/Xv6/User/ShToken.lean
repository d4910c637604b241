import Mathlib.Data.List.DropRight
import Mathlib.Data.List.TakeWhile

/-!
# The shell's tokens

`parsecmd` reads the command line through a cursor, `*ps`, that only
`gettoken` and `peek` move.  Both first pass over blanks.  `peek` tells
whether the byte after them is one of `toks`; `gettoken` takes the next
token: a symbol, `>>` as `+`, or a word, the longest run of bytes that are
neither blanks nor symbols, as `a`.

A pointer into the line is its offset.  The cursor is the bytes from it up
to the end `es`, so the pointer is `es` less their number.

`tokens` is what `gettoken` produces, taken until it returns `0` at the end
of the line.  `peek` and `gettoken` read that sequence a token at a time,
and its tokens lie in order along the line.
-/

namespace Xv6

namespace Sh

/-- `whitespace[]`. -/
def whitespace : List Char := [' ', '\t', '\r', '\n', '\x0b']

/-- `symbols[]`. -/
def symbols : List Char := ['<', '|', '>', '&', ';', '(', ')']

/-- Whether `strchr(str, c)` finds `c`: the terminating `NUL` of `str` is
found too. -/
def strchr (str : List Char) (c : Char) : Bool :=
  str.contains c || c == '\x00'

/-- The loop over blanks, `while(s < es && strchr(whitespace, *s)) s++`. -/
def skipws (ps : List Char) : List Char :=
  ps.dropWhile (strchr whitespace)

/-- A byte the word loop of `gettoken` passes over. -/
def wordByte (c : Char) : Bool :=
  !strchr whitespace c && !strchr symbols c

/-- `gettoken(ps, es, &q, &eq)`: the token's code, the pointers to its first
byte and past its last, and the cursor after it and the blanks that follow.
The code is the byte of a symbol, `+` for `>>`, `a` for a word and `0` at the
end of the line. -/
def gettoken (ps : List Char) (es : Nat) : Char × Nat × Nat × List Char :=
  let s := skipws ps
  let (ret, s') : Char × List Char :=
    match s with
    | [] => ('\x00', [])
    | c :: t =>
        if c = '\x00' then (c, c :: t)
        else if c ∈ ['|', '(', ')', ';', '&', '<'] then (c, t)
        else if c = '>' then
          match t with
          | '>' :: t' => ('+', t')
          | _ => ('>', t)
        else ('a', (c :: t).dropWhile wordByte)
  (ret, es - s.length, es - s'.length, skipws s')

/-- `peek(ps, es, toks)`: whether the byte after the blanks is one of `toks`,
and the cursor moved past the blanks. -/
def peek (ps : List Char) (toks : List Char) : Bool × List Char :=
  let s := skipws ps
  let c := s.headD '\x00'
  (c != '\x00' && strchr toks c, s)

/-- A token as `gettoken` returns it. -/
structure Token where
  ret : Char
  q : Nat
  eq : Nat
  deriving DecidableEq, Repr

/-!
## Blanks
-/

theorem length_skipws_le (ps : List Char) : (skipws ps).length ≤ ps.length :=
  List.length_dropWhile_le _ _

@[simp] theorem skipws_skipws (ps : List Char) : skipws (skipws ps) = skipws ps :=
  List.dropWhile_idempotent _ _

theorem strchr_whitespace_eq_false {c : Char} :
    strchr whitespace c = false ↔ c ∉ whitespace ∧ c ≠ '\x00' := by
  simp [strchr]

theorem head_skipws {ps t : List Char} {c : Char} (h : skipws ps = c :: t) :
    c ∉ whitespace ∧ c ≠ '\x00' := by
  rw [← strchr_whitespace_eq_false]
  have hid := skipws_skipws ps
  rw [h] at hid
  by_contra hc
  rw [skipws, List.dropWhile_cons_of_pos (by simpa using hc)] at hid
  have hle := List.length_dropWhile_le (strchr whitespace) t
  rw [hid, List.length_cons] at hle
  omega

/-!
## `gettoken`
-/

variable {ps ps' : List Char} {es : Nat}

theorem gettoken_skipws (ps : List Char) (es : Nat) : gettoken (skipws ps) es = gettoken ps es := by
  simp only [gettoken, skipws_skipws]

theorem gettoken_cases (ps : List Char) (es : Nat) :
    (skipws ps = [] ∧ gettoken ps es = ('\x00', es, es, [])) ∨
    (∃ c t, skipws ps = c :: t ∧ c ∈ ['|', '(', ')', ';', '&', '<'] ∧
      gettoken ps es = (c, es - (t.length + 1), es - t.length, skipws t)) ∨
    (∃ t, skipws ps = '>' :: '>' :: t ∧
      gettoken ps es = ('+', es - (t.length + 2), es - t.length, skipws t)) ∨
    (∃ t, skipws ps = '>' :: t ∧ t.head? ≠ some '>' ∧
      gettoken ps es = ('>', es - (t.length + 1), es - t.length, skipws t)) ∨
    (∃ c t, skipws ps = c :: t ∧ wordByte c = true ∧
      gettoken ps es = ('a', es - (t.length + 1), es - (t.dropWhile wordByte).length,
        skipws (t.dropWhile wordByte))) := by
  cases hs : skipws ps with
  | nil =>
      left
      refine ⟨rfl, ?_⟩
      simp only [gettoken, hs, List.length_nil, Nat.sub_zero]
      rfl
  | cons c t =>
      right
      obtain ⟨hws, hnul⟩ := head_skipws hs
      by_cases hsym : c ∈ ['|', '(', ')', ';', '&', '<']
      · left
        refine ⟨c, t, rfl, hsym, ?_⟩
        simp only [gettoken, hs, if_neg hnul, if_pos hsym, List.length_cons]
      · right
        by_cases hgt : c = '>'
        · subst hgt
          -- `>>` is one token, `+`
          cases t with
          | cons d t' =>
              by_cases hd : d = '>'
              · subst hd
                left
                refine ⟨t', rfl, ?_⟩
                simp only [gettoken, hs, if_neg hnul, if_neg hsym, if_true, List.length_cons]
              · right
                left
                refine ⟨d :: t', rfl, by simpa using hd, ?_⟩
                simp only [gettoken, hs, if_neg hnul, if_neg hsym, if_true, List.length_cons]
                split
                · rename_i heq
                  simp only [List.cons.injEq] at heq
                  exact absurd heq.1 hd
                · rfl
          | nil =>
              right
              left
              refine ⟨[], rfl, by simp, ?_⟩
              simp only [gettoken, hs, if_neg hnul, if_neg hsym, if_true, List.length_cons]
        · right
          right
          -- any other byte starts a word
          have hword : wordByte c = true := by
            have hsym' : c ∉ symbols := by
              simp only [symbols, List.mem_cons, List.not_mem_nil, or_false] at hsym ⊢
              tauto
            simp [wordByte, strchr, hws, hsym', hnul]
          refine ⟨c, t, rfl, hword, ?_⟩
          simp only [gettoken, hs, if_neg hnul, if_neg hsym, if_neg hgt, List.length_cons,
            List.dropWhile_cons_of_pos hword]

theorem gettoken_split {ret : Char} {q eq : Nat} {rest : List Char}
    (h : gettoken ps es = (ret, q, eq, rest)) (hr : ret ≠ '\x00') :
    ∃ w s', skipws ps = w ++ s' ∧ w ≠ [] ∧ q = es - (w ++ s').length ∧ eq = es - s'.length ∧
      rest = skipws s' ∧ (ret = 'a' → (∀ c ∈ w, wordByte c = true) ∧ ∀ c ∈ s'.head?, wordByte c = false) := by
  rcases gettoken_cases ps es with ⟨-, hg⟩ | ⟨c, t, hs, hsym, hg⟩ | ⟨t, hs, hg⟩ | ⟨t, hs, -, hg⟩ |
      ⟨c, t, hs, hw, hg⟩ <;>
    rw [hg] at h <;> simp only [Prod.mk.injEq] at h <;> obtain ⟨rfl, rfl, rfl, rfl⟩ := h
  · exact absurd rfl hr
  · refine ⟨[c], t, hs, List.cons_ne_nil _ _, rfl, rfl, rfl, fun ha => ?_⟩
    subst ha
    simp at hsym
  · exact ⟨['>', '>'], t, hs, List.cons_ne_nil _ _, rfl, rfl, rfl, fun h => by cases h⟩
  · exact ⟨['>'], t, hs, List.cons_ne_nil _ _, rfl, rfl, rfl, fun h => by cases h⟩
  · -- a word runs up to the first blank or symbol
    refine ⟨c :: t.takeWhile wordByte, t.dropWhile wordByte, ?_, List.cons_ne_nil _ _, ?_, rfl, rfl,
      fun _ => ⟨fun b hb => ?_, fun b hb => ?_⟩⟩
    · rw [hs, List.cons_append, List.takeWhile_append_dropWhile]
    · rw [List.cons_append, List.takeWhile_append_dropWhile, List.length_cons]
    · rcases List.mem_cons.mp hb with rfl | hb
      · exact hw
      · exact List.mem_takeWhile_imp hb
    · have hend := List.head?_dropWhile_not wordByte t
      rw [Option.mem_def] at hb
      rw [hb] at hend
      exact hend

theorem rest_lt_of_gettoken {ret : Char} {q eq : Nat} {rest : List Char} (h : gettoken ps es = (ret, q, eq, rest))
    (hr : ret ≠ '\x00') : rest.length < ps.length := by
  obtain ⟨w, s', hs, hw, -, -, hrest, -⟩ := gettoken_split h hr
  have h₁ := length_skipws_le ps
  have h₂ := length_skipws_le s'
  have h₃ : 0 < w.length := List.length_pos_of_ne_nil hw
  rw [hs, List.length_append] at h₁
  rw [hrest]
  omega

theorem gettoken_rest_lt (h : (gettoken ps es).1 ≠ '\x00') : (gettoken ps es).2.2.2.length < ps.length := by
  rcases hg : gettoken ps es with ⟨ret, q, eq, rest⟩
  rw [hg] at h
  exact rest_lt_of_gettoken hg h

theorem gettoken_rest_of_end (h : (gettoken ps es).1 = '\x00') : (gettoken ps es).2.2.2 = [] := by
  rcases gettoken_cases ps es with ⟨-, hg⟩ | ⟨c, t, hs, -, hg⟩ | ⟨t, -, hg⟩ | ⟨t, -, -, hg⟩ |
      ⟨c, t, -, -, hg⟩ <;> rw [hg] at h ⊢
  · exact absurd h (head_skipws hs).2
  all_goals cases h

theorem gettoken_rest_le (ps : List Char) (es : Nat) : (gettoken ps es).2.2.2.length ≤ ps.length := by
  by_cases hr : (gettoken ps es).1 = '\x00'
  · rw [gettoken_rest_of_end hr]
    exact Nat.zero_le _
  · exact Nat.le_of_lt (gettoken_rest_lt hr)

/-- The tokens `gettoken` produces from the cursor `ps`, up to the end of
the line. -/
def tokens (es : Nat) (ps : List Char) : List Token :=
  if (gettoken ps es).1 = '\x00' then []
  else ⟨(gettoken ps es).1, (gettoken ps es).2.1, (gettoken ps es).2.2.1⟩ :: tokens es (gettoken ps es).2.2.2
termination_by ps.length
decreasing_by exact gettoken_rest_lt ‹_›

theorem tokens_of_end (h : (gettoken ps es).1 = '\x00') : tokens es ps = [] := by
  rw [tokens, if_pos h]

theorem tokens_of_token {ret : Char} {q eq : Nat} {rest : List Char} (h : gettoken ps es = (ret, q, eq, rest))
    (hr : ret ≠ '\x00') : tokens es ps = ⟨ret, q, eq⟩ :: tokens es rest := by
  have hr' : (gettoken ps es).1 ≠ '\x00' := by rw [h]; exact hr
  rw [tokens, if_neg hr', h]

theorem tokens_eq_cons (hr : (gettoken ps es).1 ≠ '\x00') :
    tokens es ps = ⟨(gettoken ps es).1, (gettoken ps es).2.1, (gettoken ps es).2.2.1⟩ :: tokens es (gettoken ps es).2.2.2 := by
  rw [tokens, if_neg hr]

@[simp] theorem tokens_skipws (ps : List Char) (es : Nat) : tokens es (skipws ps) = tokens es ps := by
  conv_lhs => rw [tokens]
  conv_rhs => rw [tokens]
  simp only [gettoken_skipws]

/-!
## `peek`
-/

/-- The byte `peek` sees of a token: `>` for `>>`. -/
def lead (ret : Char) : Char :=
  if ret = '+' then '>' else ret

@[simp] theorem peek_snd (ps toks : List Char) : (peek ps toks).2 = skipws ps :=
  rfl

theorem peek_fst {toks : List Char} (htoks : toks ⊆ symbols) (ps : List Char) (es : Nat) :
    (peek ps toks).1 = ((tokens es ps).head?.any fun t => toks.contains (lead t.ret)) := by
  rcases gettoken_cases ps es with ⟨hs, hg⟩ | ⟨c, t, hs, hsym, hg⟩ | ⟨t, hs, hg⟩ | ⟨t, hs, -, hg⟩ |
      ⟨c, t, hs, hw, hg⟩
  · rw [tokens_of_end (by rw [hg])]
    simp [peek, hs]
  · have hnul : c ≠ '\x00' := (head_skipws hs).2
    rw [tokens_of_token hg hnul]
    have hplus : c ≠ '+' := by
      rintro rfl
      exact absurd hsym (by decide)
    have hnul' : (c == '\x00') = false := by simpa using hnul
    simp [peek, hs, lead, hplus, hnul, hnul', strchr]
  · rw [tokens_of_token hg (by decide)]
    simp [peek, hs, lead, strchr]
  · rw [tokens_of_token hg (by decide)]
    simp [peek, hs, lead, strchr]
  · -- a word starts with no symbol, and `a` is none
    rw [tokens_of_token hg (by decide)]
    have hnul : c ≠ '\x00' := (head_skipws hs).2
    have hc : c ∉ toks := fun hc => by simp [wordByte, strchr, htoks hc] at hw
    have ha : 'a' ∉ toks := fun ha => by simpa [symbols] using htoks ha
    simp [peek, hs, lead, hnul, strchr, hc, ha]

theorem gettoken_ne_end_of_peek {toks : List Char} (h : (peek ps toks).1 = true) (es : Nat) :
    (gettoken ps es).1 ≠ '\x00' := by
  rcases gettoken_cases ps es with ⟨hs, -⟩ | ⟨c, t, hs, -, hg⟩ | ⟨t, -, hg⟩ | ⟨t, -, -, hg⟩ |
      ⟨c, t, -, -, hg⟩
  · simp [peek, hs] at h
  · rw [hg]
    exact (head_skipws hs).2
  all_goals rw [hg]; dsimp only; decide

theorem peek_gettoken_lt {toks : List Char} (h : (peek ps toks).1 = true) (es : Nat) :
    (gettoken (peek ps toks).2 es).2.2.2.length < ps.length := by
  have hne : (gettoken (skipws ps) es).1 ≠ '\x00' := by
    rw [gettoken_skipws]
    exact gettoken_ne_end_of_peek h es
  have hlt := gettoken_rest_lt hne
  have hle := length_skipws_le ps
  rw [peek_snd]
  omega

/-!
## Reading the tokens
-/

theorem gettoken_of_tokens {t : Token} {ts : List Token} (h : tokens es ps = t :: ts) :
    ∃ rest, gettoken ps es = (t.ret, t.q, t.eq, rest) ∧ tokens es rest = ts := by
  rcases hg : gettoken ps es with ⟨ret, q, eq, rest⟩
  by_cases hr : ret = '\x00'
  · rw [tokens_of_end (by rw [hg]; exact hr)] at h
    cases h
  · rw [tokens_of_token hg hr] at h
    obtain ⟨rfl, rfl⟩ := List.cons.inj h
    exact ⟨rest, rfl, rfl⟩

theorem gettoken_eq_end_iff (ps : List Char) (es : Nat) : (gettoken ps es).1 = '\x00' ↔ skipws ps = [] := by
  rcases gettoken_cases ps es with ⟨hs, hg⟩ | ⟨c, t, hs, -, hg⟩ | ⟨t, hs, hg⟩ | ⟨t, hs, -, hg⟩ |
      ⟨c, t, hs, -, hg⟩ <;> rw [hg, hs]
  · simp
  · simpa using (head_skipws hs).2
  all_goals simp

theorem tokens_eq_nil_iff : tokens es ps = [] ↔ skipws ps = [] := by
  rw [← gettoken_eq_end_iff ps es]
  constructor
  · intro h
    by_contra hne
    rw [tokens_eq_cons hne] at h
    cases h
  · exact tokens_of_end

theorem tokens_of_peek {toks : List Char} (htoks : toks ⊆ symbols) (h : (peek ps toks).1 = true)
    (es : Nat) :
    tokens es ps = ⟨(gettoken (peek ps toks).2 es).1, (gettoken (peek ps toks).2 es).2.1,
        (gettoken (peek ps toks).2 es).2.2.1⟩ :: tokens es (gettoken (peek ps toks).2 es).2.2.2 ∧
      toks.contains (lead (gettoken (peek ps toks).2 es).1) = true := by
  have hne : (gettoken (skipws ps) es).1 ≠ '\x00' := by
    rw [gettoken_skipws]
    exact gettoken_ne_end_of_peek h es
  have htok : tokens es ps = ⟨(gettoken (skipws ps) es).1, (gettoken (skipws ps) es).2.1,
      (gettoken (skipws ps) es).2.2.1⟩ :: tokens es (gettoken (skipws ps) es).2.2.2 := by
    rw [← tokens_skipws ps es]
    exact tokens_eq_cons hne
  refine ⟨htok, ?_⟩
  rw [peek_fst htoks ps es, htok] at h
  simpa using h

theorem contains_lead {toks : List Char} (hgt : '>' ∉ toks) (hplus : '+' ∉ toks) (ret : Char) :
    toks.contains (lead ret) = decide (ret ∈ toks) := by
  by_cases h : ret = '+'
  · subst h
    simp [lead, hgt, hplus]
  · simp [lead, h]

theorem contains_lead_redir (ret : Char) : ['<', '>'].contains (lead ret) = decide (ret ∈ ['<', '>', '+']) := by
  by_cases h : ret = '+'
  · subst h
    decide
  · simp only [lead, if_neg h]
    by_cases h' : ret = '>'
    · subst h'
      decide
    · simp [h, h']

/-!
## Where the tokens lie
-/

theorem tokens_bounds (ps : List Char) (hps : ps.length ≤ es) :
    ∀ t ∈ tokens es ps, es - ps.length ≤ t.q ∧ t.q < t.eq ∧ t.eq ≤ es := by
  rcases hg : gettoken ps es with ⟨ret, q, eq, rest⟩
  by_cases hr : ret = '\x00'
  · rw [tokens_of_end (by rw [hg]; exact hr)]
    intro t ht
    cases ht
  · obtain ⟨w, s', hs, hw, hq, heq, hrest, -⟩ := gettoken_split hg hr
    have hlt : rest.length < ps.length := rest_lt_of_gettoken hg hr
    have h₁ := length_skipws_le ps
    have h₂ := length_skipws_le s'
    have hwpos : 0 < w.length := List.length_pos_of_ne_nil hw
    rw [hs, List.length_append] at h₁
    rw [tokens_of_token hg hr]
    intro t ht
    rcases List.mem_cons.mp ht with rfl | ht
    · rw [List.length_append] at hq
      dsimp only
      omega
    · have ih := tokens_bounds rest (by omega) t ht
      rw [hrest] at ih
      omega
termination_by ps.length
decreasing_by assumption

theorem tokens_word {buf : List Char} (ps : List Char) (hsuf : ps <:+ buf) :
    ∀ t ∈ tokens buf.length ps, t.ret = 'a' →
      (∀ i, t.q ≤ i → i < t.eq → wordByte (buf.getD i '\x00') = true) ∧ t.eq ≤ buf.length ∧
        (t.eq < buf.length → wordByte (buf.getD t.eq '\x00') = false) := by
  rcases hg : gettoken ps buf.length with ⟨ret, q, eq, rest⟩
  by_cases hr : ret = '\x00'
  · rw [tokens_of_end (by rw [hg]; exact hr)]
    intro t ht
    cases ht
  · obtain ⟨w, s', hs, hw, hq, heq, hrest, hword⟩ := gettoken_split hg hr
    have hlt : rest.length < ps.length := rest_lt_of_gettoken hg hr
    -- the token's bytes are the line's from `q`
    have hsuf' : w ++ s' <:+ buf := hs ▸ (List.dropWhile_suffix _).trans hsuf
    have hlen : (w ++ s').length ≤ buf.length := hsuf'.length_le
    have hdrop : buf.drop q = w ++ s' := by
      rw [hq]
      exact (List.suffix_iff_eq_drop.mp hsuf').symm
    have hat : ∀ k, buf[q + k]? = (w ++ s')[k]? := fun k => by rw [← List.getElem?_drop, hdrop]
    rw [List.length_append] at hlen hq
    rw [tokens_of_token hg hr]
    intro t ht hta
    rcases List.mem_cons.mp ht with rfl | ht
    · dsimp only at hta ⊢
      obtain ⟨hin, hafter⟩ := hword hta
      refine ⟨fun i hi hi' => ?_, by omega, fun hend => ?_⟩
      · have hk : i - q < w.length := by omega
        have hi'' : i = q + (i - q) := by omega
        rw [List.getD_eq_getElem?_getD, hi'', hat, List.getElem?_append_left hk,
          List.getElem?_eq_getElem hk, Option.getD_some]
        exact hin _ (List.getElem_mem hk)
      · -- the line goes on past the word: with the byte `s'` starts with
        have he : eq = q + w.length := by omega
        obtain ⟨c, u, rfl⟩ : ∃ c u, s' = c :: u := List.exists_cons_of_ne_nil (by
          rintro rfl
          rw [List.length_nil] at heq
          omega)
        rw [List.getD_eq_getElem?_getD, he, hat, List.getElem?_append_right le_rfl, Nat.sub_self]
        exact hafter c rfl
    · have hrest' : rest <:+ buf :=
        hrest ▸ (List.dropWhile_suffix _).trans ((List.suffix_append w s').trans hsuf')
      exact tokens_word rest hrest' t ht hta
termination_by ps.length
decreasing_by assumption

end Sh

end Xv6

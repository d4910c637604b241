import Mathlib.Data.List.Basic

/-!
# grep

`grep.c`: the regular-expression matcher of Kernighan and Pike (*The
Practice of Programming*, chapter 9) and the loop that feeds it the lines of
its input.

The pattern and the text are C strings, kept as their bytes before the NUL.
`matchhere` is structurally recursive in the pattern and `matchstar` in the
text, so the mutual recursion of the source terminates by construction.

Against the matcher stands the meaning of a pattern: read left to right, a
byte followed by `*` stands for any number of bytes it accepts, `.` accepts
any byte, and a `$` that ends the pattern anchors the match at the end of the
text, as a `^` that starts it anchors it at the start.  `match` finds exactly
the texts with a substring in the language of the pattern.

The loop reads into a buffer of 1024 bytes and hands `match` each complete
line.  When a read leaves no complete line in the buffer, `if(p == buf) m = 0`
throws the bytes away: a line that reaches `grep` in two reads is lost.
-/

namespace Xv6

namespace Grep

def CARET : UInt8 := 94
def DOLLAR : UInt8 := 36
def DOT : UInt8 := 46
def STAR : UInt8 := 42
def NEWLINE : UInt8 := 10

/-!
## The matcher
-/

/-- `matchstar(c, re, text)`, with `here` the test `matchhere(re, ·)`: the
loop tries `re` after each run of bytes `c` accepts. -/
def matchstar (here : List UInt8 → Bool) (c : UInt8) : List UInt8 → Bool
  | [] => here []
  | t :: text => here (t :: text) || ((t == c || c == DOT) && matchstar here c text)

/-- `matchhere(re, text)`: whether `re` matches at the start of `text`. -/
def matchhere : List UInt8 → List UInt8 → Bool
  | [], _ => true
  | [c], text =>
      -- `re[1]` is the NUL: `$` at the end, or one byte
      if c = DOLLAR then text.isEmpty
      else
        match text with
        | t :: _ => c == DOT || c == t
        | [] => false
  | c :: r :: re, text =>
      if r = STAR then matchstar (matchhere re) c text
      else
        match text with
        | t :: text' => (c == DOT || c == t) && matchhere (r :: re) text'
        | [] => false

/-- The `do … while(*text++ != '\0')` loop of `match`: `matchhere` at each
position of the text, the empty rest included. -/
def matchLoop (re : List UInt8) : List UInt8 → Bool
  | [] => matchhere re []
  | t :: text => matchhere re (t :: text) || matchLoop re text

/-- `match(re, text)`. -/
def «match» (re text : List UInt8) : Bool :=
  match re with
  | c :: re' => if c = CARET then matchhere re' text else matchLoop (c :: re') text
  | [] => matchLoop [] text

/-!
## What a pattern means
-/

/-- An element of a pattern: a byte, or a byte with `*` after it. -/
inductive Atom where
  | char (c : UInt8)
  | star (c : UInt8)
deriving DecidableEq, Repr

/-- A pattern read left to right: its atoms, and whether a `$` ends it. -/
def parse : List UInt8 → List Atom × Bool
  | [] => ([], false)
  | [c] => if c = DOLLAR then ([], true) else ([.char c], false)
  | c :: r :: re =>
      if r = STAR then ((parse re).1.cons (.star c), (parse re).2)
      else ((parse (r :: re)).1.cons (.char c), (parse (r :: re)).2)

/-- The byte `c` of a pattern accepts the byte `t`: `.` accepts any. -/
def Accepts (c t : UInt8) : Prop :=
  c = DOT ∨ c = t

instance (c t : UInt8) : Decidable (Accepts c t) :=
  inferInstanceAs (Decidable (_ ∨ _))

/-- The words of a list of atoms: each `char c` one byte `c` accepts, each
`star c` any number of them. -/
inductive Lang : List Atom → List UInt8 → Prop where
  | nil : Lang [] []
  | char {c t : UInt8} {as : List Atom} {w : List UInt8} : Accepts c t → Lang as w → Lang (.char c :: as) (t :: w)
  | starNil {c : UInt8} {as : List Atom} {w : List UInt8} : Lang as w → Lang (.star c :: as) w
  | starCons {c t : UInt8} {as : List Atom} {w : List UInt8} :
      Accepts c t → Lang (.star c :: as) w → Lang (.star c :: as) (t :: w)

/-- `re`, anchored at the start of `text`: a prefix of `text` is in the
language of `re`, and it is all of `text` when `re` ends with `$`. -/
def MatchesHere (re text : List UInt8) : Prop :=
  ∃ w rest, text = w ++ rest ∧ Lang (parse re).1 w ∧ ((parse re).2 = true → rest = [])

/-- What `match` is to find: a substring of `text` in the language of `re`,
a prefix when `re` starts with `^`. -/
def Found (re text : List UInt8) : Prop :=
  match re with
  | c :: re' => if c = CARET then MatchesHere re' text else ∃ pre suf, text = pre ++ suf ∧ MatchesHere re suf
  | [] => ∃ pre suf, text = pre ++ suf ∧ MatchesHere [] suf

/-!
## The language of a list of atoms
-/

variable {c r t : UInt8} {as : List Atom} {re text u v w : List UInt8}

theorem lang_nil_iff : Lang [] w ↔ w = [] := by
  constructor
  · rintro ⟨⟩
    rfl
  · rintro rfl
    exact .nil

theorem lang_char_iff : Lang (.char c :: as) w ↔ ∃ t w', w = t :: w' ∧ Accepts c t ∧ Lang as w' := by
  constructor
  · rintro (_ | ⟨hc, hw⟩)
    exact ⟨_, _, rfl, hc, hw⟩
  · rintro ⟨t, w', rfl, hc, hw⟩
    exact .char hc hw

theorem lang_star_of_run (hu : ∀ t ∈ u, Accepts c t) (hv : Lang as v) : Lang (.star c :: as) (u ++ v) := by
  induction u with
  | nil => exact .starNil hv
  | cons t u ih =>
      have ht := hu t List.mem_cons_self
      exact .starCons ht (ih fun t' ht' => hu t' (List.mem_cons_of_mem _ ht'))

theorem lang_star_iff :
    Lang (.star c :: as) w ↔ ∃ u v, w = u ++ v ∧ (∀ t ∈ u, Accepts c t) ∧ Lang as v := by
  constructor
  · -- peel the bytes the star took, one derivation step at a time
    intro h
    generalize hs : (Atom.star c :: as) = s at h
    induction h with
    | nil => cases hs
    | char => cases hs
    | starNil hw =>
        cases hs
        exact ⟨[], _, rfl, by simp, hw⟩
    | starCons hc _ ih =>
        cases hs
        obtain ⟨u, v, rfl, hu, hv⟩ := ih rfl
        refine ⟨_ :: u, v, rfl, ?_, hv⟩
        intro t' ht'
        rcases List.mem_cons.mp ht' with rfl | ht'
        · exact hc
        · exact hu t' ht'
  · rintro ⟨u, v, rfl, hu, hv⟩
    exact lang_star_of_run hu hv

/-!
## The matcher finds exactly the language
-/

theorem accepts_iff : Accepts c t ↔ (t == c) = true ∨ (c == DOT) = true := by
  simp only [Accepts, beq_iff_eq]
  constructor
  · rintro (h | h)
    · exact .inr h
    · exact .inl h.symm
  · rintro (h | h)
    · exact .inr h.symm
    · exact .inl h

theorem matchstar_iff (here : List UInt8 → Bool) :
    matchstar here c text = true ↔ ∃ u v, text = u ++ v ∧ (∀ t ∈ u, Accepts c t) ∧ here v = true := by
  induction text with
  | nil =>
      simp only [matchstar, List.nil_eq_append_iff]
      constructor
      · intro h
        exact ⟨[], [], ⟨rfl, rfl⟩, by simp, h⟩
      · rintro ⟨u, v, ⟨rfl, rfl⟩, -, h⟩
        exact h
  | cons t text ih =>
      simp only [matchstar, Bool.or_eq_true, Bool.and_eq_true, ih]
      constructor
      · rintro (h | ⟨ht, u, v, rfl, hu, hv⟩)
        · exact ⟨[], _, rfl, by simp, h⟩
        · refine ⟨t :: u, v, rfl, ?_, hv⟩
          intro t' ht'
          rcases List.mem_cons.mp ht' with rfl | ht'
          · exact accepts_iff.mpr ht
          · exact hu t' ht'
      · rintro ⟨_ | ⟨t', u⟩, v, he, hu, hv⟩
        · rw [List.nil_append] at he
          rw [← he] at hv
          exact .inl hv
        · obtain ⟨rfl, rfl⟩ := List.cons_eq_cons.mp he
          refine .inr ⟨accepts_iff.mp (hu _ List.mem_cons_self), u, v, rfl, ?_, hv⟩
          exact fun t'' ht'' => hu t'' (List.mem_cons_of_mem _ ht'')

theorem parse_star (h : r = STAR) : parse (c :: r :: re) = ((parse re).1.cons (.star c), (parse re).2) := by
  simp [parse, h]

theorem parse_char (h : r ≠ STAR) :
    parse (c :: r :: re) = ((parse (r :: re)).1.cons (.char c), (parse (r :: re)).2) := by
  simp [parse, h]

theorem matchesHere_nil : MatchesHere [] text :=
  ⟨[], text, rfl, .nil, fun h => absurd h (by simp [parse])⟩

theorem matchesHere_dollar : MatchesHere [DOLLAR] text ↔ text = [] := by
  simp only [MatchesHere, parse, if_pos, lang_nil_iff, forall_const]
  constructor
  · rintro ⟨w, rest, rfl, rfl, rfl⟩
    rfl
  · rintro rfl
    exact ⟨[], [], rfl, rfl, rfl⟩

theorem matchesHere_single (h : c ≠ DOLLAR) : MatchesHere [c] text ↔ ∃ t rest, text = t :: rest ∧ Accepts c t := by
  simp only [MatchesHere, parse, if_neg h, lang_char_iff, lang_nil_iff]
  constructor
  · rintro ⟨w, rest, rfl, ⟨t, w', rfl, hc, rfl⟩, -⟩
    exact ⟨t, rest, rfl, hc⟩
  · rintro ⟨t, rest, rfl, hc⟩
    exact ⟨[t], rest, rfl, ⟨t, [], rfl, hc, rfl⟩, fun h => absurd h (by simp)⟩

theorem matchesHere_star (h : r = STAR) :
    MatchesHere (c :: r :: re) text ↔ ∃ u v, text = u ++ v ∧ (∀ t ∈ u, Accepts c t) ∧ MatchesHere re v := by
  simp only [MatchesHere, parse_star h, lang_star_iff]
  constructor
  · rintro ⟨w, rest, rfl, ⟨u, v, rfl, hu, hv⟩, hend⟩
    exact ⟨u, v ++ rest, List.append_assoc _ _ _, hu, v, rest, rfl, hv, hend⟩
  · rintro ⟨u, v, rfl, hu, w, rest, rfl, hw, hend⟩
    exact ⟨u ++ w, rest, (List.append_assoc _ _ _).symm, ⟨u, w, rfl, hu, hw⟩, hend⟩

theorem matchesHere_char (h : r ≠ STAR) :
    MatchesHere (c :: r :: re) text ↔ ∃ t text', text = t :: text' ∧ Accepts c t ∧ MatchesHere (r :: re) text' := by
  simp only [MatchesHere, parse_char h, lang_char_iff]
  constructor
  · rintro ⟨w, rest, rfl, ⟨t, w', rfl, hc, hw⟩, hend⟩
    exact ⟨t, w' ++ rest, rfl, hc, w', rest, rfl, hw, hend⟩
  · rintro ⟨t, text', rfl, hc, w, rest, rfl, hw, hend⟩
    exact ⟨t :: w, rest, rfl, ⟨t, w, rfl, hc, hw⟩, hend⟩

/-- `matchhere` decides whether the pattern matches at the start of the
text.  The recursion follows the three cases of `matchhere`: the pattern
ends, one byte is left, or a byte comes with what follows it. -/
theorem matchhere_iff : ∀ re text : List UInt8, matchhere re text = true ↔ MatchesHere re text
  | [], text => by simp [matchhere, matchesHere_nil]
  | [c], text => by
      by_cases hc : c = DOLLAR
      · subst hc
        simp [matchhere, matchesHere_dollar]
      · rw [matchesHere_single hc]
        cases text with
        | nil => simp [matchhere, hc]
        | cons t rest =>
            simp only [matchhere, if_neg hc, Bool.or_eq_true, beq_iff_eq, List.cons.injEq]
            constructor
            · intro h
              exact ⟨t, rest, ⟨rfl, rfl⟩, h⟩
            · rintro ⟨t', rest', ⟨rfl, rfl⟩, h⟩
              exact h
  | c :: r :: re, text => by
      by_cases hr : r = STAR
      · simp only [matchhere, if_pos hr, matchstar_iff, matchhere_iff re, matchesHere_star hr]
      · rw [matchesHere_char hr]
        cases text with
        | nil => simp [matchhere, hr]
        | cons t text' =>
            simp only [matchhere, if_neg hr, Bool.and_eq_true, Bool.or_eq_true, beq_iff_eq,
              matchhere_iff (r :: re), List.cons.injEq]
            constructor
            · rintro ⟨hc, hm⟩
              exact ⟨t, text', ⟨rfl, rfl⟩, hc, hm⟩
            · rintro ⟨t', text'', ⟨rfl, rfl⟩, hc, hm⟩
              exact ⟨hc, hm⟩

theorem matchLoop_iff (re text : List UInt8) :
    matchLoop re text = true ↔ ∃ pre suf, text = pre ++ suf ∧ matchhere re suf = true := by
  induction text with
  | nil =>
      simp only [matchLoop, List.nil_eq_append_iff]
      constructor
      · intro h
        exact ⟨[], [], ⟨rfl, rfl⟩, h⟩
      · rintro ⟨pre, suf, ⟨rfl, rfl⟩, h⟩
        exact h
  | cons t text ih =>
      simp only [matchLoop, Bool.or_eq_true, ih]
      constructor
      · rintro (h | ⟨pre, suf, rfl, h⟩)
        · exact ⟨[], _, rfl, h⟩
        · exact ⟨t :: pre, suf, rfl, h⟩
      · rintro ⟨_ | ⟨t', pre⟩, suf, he, h⟩
        · rw [List.nil_append] at he
          rw [← he] at h
          exact .inl h
        · obtain ⟨rfl, rfl⟩ := List.cons_eq_cons.mp he
          exact .inr ⟨pre, suf, rfl, h⟩

theorem match_finds_language (re text : List UInt8) : «match» re text = true ↔ Found re text := by
  cases re with
  | nil => simp only [«match», Found, matchLoop_iff, matchhere_iff]
  | cons c re' =>
      by_cases hc : c = CARET
      · simp only [«match», Found, if_pos hc, matchhere_iff]
      · simp only [«match», Found, if_neg hc, matchLoop_iff, matchhere_iff]

example : «match» [CARET, 97, STAR, 98, DOLLAR] [97, 97, 98] = true := by decide

/-!
## The loop over the input

`buf` holds `m` bytes and a NUL after them; the model keeps the `m` bytes.
Each `read` returns the next of a list of chunks: the bytes the file, pipe or
console delivers to that call, at most the `sizeof(buf) - m - 1` it asks for.
An empty chunk is a `read` that returns `0` and ends the loop.
-/

/-- The inner loop of `grep` from `p`, with the scan of `strchr(p, '\n')` in
it: `line` the bytes from `p` the scan has passed.  It returns what it writes,
and the bytes from the last `p` on, where `strchr` found no newline before
the NUL. -/
def lineLoop (re : List UInt8) (line : List UInt8) : List UInt8 → List UInt8 × List UInt8
  | [] => ([], line)
  | b :: rest =>
      if b = 0 then ([], line ++ b :: rest)
      else if b = NEWLINE then
        -- `*q = 0`, `match(pattern, p)`, and the line written with its newline
        let r := lineLoop re [] rest
        ((if «match» re line then line ++ [NEWLINE] else []) ++ r.1, r.2)
      else lineLoop re (line ++ [b]) rest

/-- `grep(pattern, fd)`, from the `m` bytes `buf` holds, when the reads
return `chunks` in turn: what it writes to the standard output. -/
def grepLoop (re : List UInt8) : List UInt8 → List (List UInt8) → List UInt8
  | _, [] => []
  | buf, chunk :: chunks =>
      if chunk = [] then []
      else
        let buf := buf ++ chunk
        let r := lineLoop re [] buf
        -- `if(p == buf) m = 0`; else the bytes from `p` on move to the front
        let left := if r.2.length = buf.length then [] else r.2
        r.1 ++ grepLoop re left chunks

/-- `grep(pattern, fd)` on a descriptor whose reads return `chunks`. -/
def grep (re : List UInt8) (chunks : List (List UInt8)) : List UInt8 :=
  grepLoop re [] chunks

/-- The line-by-line filter: each line, with its newline, that `match` accepts. -/
def filterLines (re : List UInt8) (lines : List (List UInt8)) : List UInt8 :=
  lines.flatMap fun l => if «match» re l then l ++ [NEWLINE] else []

/-- The stream of the lines, each ended by a newline. -/
def stream (lines : List (List UInt8)) : List UInt8 :=
  lines.flatMap fun l => l ++ [NEWLINE]

/-!
## What the loop writes
-/

variable {ls : List (List UInt8)} {chunks : List (List UInt8)} {chunk l line : List UInt8}

theorem lineLoop_of_no_newline (h : NEWLINE ∉ w) : lineLoop re line w = ([], line ++ w) := by
  induction w generalizing line with
  | nil => simp [lineLoop]
  | cons b rest ih =>
      have hb : b ≠ NEWLINE := fun hb => h (hb ▸ List.mem_cons_self)
      have hrest : NEWLINE ∉ rest := fun hr => h (List.mem_cons_of_mem _ hr)
      by_cases h0 : b = 0
      · simp [lineLoop, h0]
      · simp [lineLoop, h0, hb, ih hrest]

theorem grepLoop_drops_chunk (hne : chunk ≠ []) (h : NEWLINE ∉ chunk) :
    grepLoop re [] (chunk :: chunks) = grepLoop re [] chunks := by
  simp [grepLoop, hne, lineLoop_of_no_newline h]

theorem lineLoop_line (hl : NEWLINE ∉ l ∧ 0 ∉ l) :
    lineLoop re line (l ++ NEWLINE :: w) =
      ((if «match» re (line ++ l) then line ++ l ++ [NEWLINE] else []) ++ (lineLoop re [] w).1,
        (lineLoop re [] w).2) := by
  induction l generalizing line with
  | nil =>
      have h0 : NEWLINE ≠ 0 := by decide
      simp [lineLoop, h0]
  | cons b l ih =>
      have hb : b ≠ NEWLINE := fun hb => hl.1 (hb ▸ List.mem_cons_self)
      have hb0 : b ≠ 0 := fun hb => hl.2 (hb ▸ List.mem_cons_self)
      have hl' : NEWLINE ∉ l ∧ 0 ∉ l :=
        ⟨fun h => hl.1 (List.mem_cons_of_mem _ h), fun h => hl.2 (List.mem_cons_of_mem _ h)⟩
      simp only [List.cons_append, lineLoop, if_neg hb0, if_neg hb]
      rw [ih hl', List.append_assoc line [b] l]
      rfl

theorem lineLoop_stream (hls : ∀ l ∈ ls, NEWLINE ∉ l ∧ 0 ∉ l) :
    lineLoop re [] (stream ls) = (filterLines re ls, []) := by
  induction ls with
  | nil => rfl
  | cons l ls ih =>
      have hl := hls l List.mem_cons_self
      have hrest : ∀ l' ∈ ls, NEWLINE ∉ l' ∧ 0 ∉ l' := fun l' h => hls l' (List.mem_cons_of_mem _ h)
      simp only [stream, List.flatMap_cons, List.append_assoc, List.singleton_append] at ih ⊢
      rw [lineLoop_line hl, ih hrest]
      simp [filterLines, List.nil_append]

theorem grep_of_whole_lines (reads : List (List (List UInt8)))
    (hreads : ∀ ls ∈ reads, ls ≠ [] ∧ ∀ l ∈ ls, NEWLINE ∉ l ∧ 0 ∉ l) :
    grep re (reads.map stream) = filterLines re reads.flatten := by
  unfold grep
  induction reads with
  | nil => rfl
  | cons ls reads ih =>
      obtain ⟨hne, hls⟩ := hreads ls List.mem_cons_self
      have hrest := fun ls' h => hreads ls' (List.mem_cons_of_mem _ h)
      have hs : stream ls ≠ [] := by
        obtain ⟨l, ls', rfl⟩ := List.exists_cons_of_ne_nil hne
        simp [stream]
      simp only [List.map_cons, grepLoop, if_neg hs, List.nil_append, lineLoop_stream hls, List.length_nil,
        ite_self, ih hrest, List.flatten_cons, filterLines, List.flatMap_append]

/-- A line that reaches `grep` in two reads is lost: `"abc\n"` read as `"ab"`
then `"c\n"` gives no output for the pattern `abc`, where the line filter
writes the line. -/
theorem grep_loses_line_split_across_reads :
    stream [[97, 98, 99]] = [97, 98] ++ [99, NEWLINE] ∧
      grep [97, 98, 99] [[97, 98], [99, NEWLINE]] = [] ∧
      filterLines [97, 98, 99] [[97, 98, 99]] = [97, 98, 99, NEWLINE] := by
  refine ⟨rfl, ?_, by decide⟩
  rw [grep, grepLoop_drops_chunk (by decide) (by decide)]
  decide

end Grep

end Xv6

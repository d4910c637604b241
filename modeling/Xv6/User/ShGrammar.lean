import Xv6.User.ShParse

/-!
# The shell's grammar

The tokens `gettoken` produces from a command line are derivable from

  line  := pipe '&'* [';' line]
  pipe  := exec ['|' pipe]
  exec  := '(' line ')' redirs | redirs (word redirs)*
  redirs := (('<' | '>' | '>>') word)*

exactly when `parsecmd` returns, with fewer than `MAXARGS` words to each
`exec`.  The tree it returns is the derivation's: each `&` wraps what comes
before it, `|` and `;` nest to the right, and each redirection wraps the
command built so far, in the order of the line.

`Derives N ts t rest` says that the tokens `ts` start with a phrase of `N`
that derives `t`, and `rest` follows it.  Soundness, that what the parse
functions return is derived, follows their recursion.  Completeness goes by
induction on the derivation, where the token after each phrase, which the
grammar allows after `N` (`Follows N`), is what makes the parser's greedy
loops stop where the derivation does.
-/

namespace Xv6

namespace Sh

/-- A redirection as the grammar reads it: the operator's code and the word
it names. -/
structure Redir where
  tok : Char
  q : Nat
  eq : Nat

/-- `cmd` wrapped in the redirections `rs` in turn. -/
def wrap (cmd : Cmd) (rs : List Redir) : Cmd :=
  rs.foldl (fun c r => redirect r.tok c r.q r.eq) cmd

/-- `redirs := (('<' | '>' | '>>') word)*`: the tokens start with the
redirections `rs`, and `rest` follows. -/
inductive Redirs : List Token → List Redir → List Token → Prop
  | nil (ts : List Token) : Redirs ts [] ts
  | cons {op file : Token} {ts rest : List Token} {rs : List Redir} :
      op.ret ∈ ['<', '>', '+'] → file.ret = 'a' → Redirs ts rs rest →
      Redirs (op :: file :: ts) (⟨op.ret, file.q, file.eq⟩ :: rs) rest

/-- `(word redirs)*`: the words `argv` in turn, and the redirections after
each. -/
inductive Words : List Token → List (Nat × Nat) → List Redir → List Token → Prop
  | nil (ts : List Token) : Words ts [] [] ts
  | cons {w : Token} {ts ts₁ rest : List Token} {argv : List (Nat × Nat)} {rs₁ rs : List Redir} :
      w.ret = 'a' → Redirs ts rs₁ ts₁ → Words ts₁ argv rs rest →
      Words (w :: ts) ((w.q, w.eq) :: argv) (rs₁ ++ rs) rest

/-- `'&'*`: each `&` wraps the command in a `backcmd`. -/
inductive Backs : List Token → Cmd → Cmd → List Token → Prop
  | nil (ts : List Token) (c : Cmd) : Backs ts c c ts
  | cons {amp : Token} {ts rest : List Token} {c c' : Cmd} :
      amp.ret = '&' → Backs ts (.back c) c' rest → Backs (amp :: ts) c c' rest

/-- The nonterminals with a parse function. -/
inductive NT
  | line
  | pipe
  | exec
  deriving DecidableEq, Repr

/-- The tokens start with a phrase of the nonterminal deriving the tree, and
`rest` follows it. -/
inductive Derives : NT → List Token → Cmd → List Token → Prop
  | block {lp rp : Token} {ts ts' rest : List Token} {c : Cmd} {rs : List Redir} :
      lp.ret = '(' → Derives .line ts c (rp :: ts') → rp.ret = ')' → Redirs ts' rs rest →
      Derives .exec (lp :: ts) (wrap c rs) rest
  | simple {ts ts₀ rest : List Token} {rs₀ rs₁ : List Redir} {argv : List (Nat × Nat)} :
      Redirs ts rs₀ ts₀ → Words ts₀ argv rs₁ rest → argv.length < MAXARGS →
      Derives .exec ts (wrap (.exec argv) (rs₀ ++ rs₁)) rest
  | pipeOne {ts rest : List Token} {c : Cmd} : Derives .exec ts c rest → Derives .pipe ts c rest
  | pipeMore {bar : Token} {ts ts' rest : List Token} {c c' : Cmd} :
      Derives .exec ts c (bar :: ts') → bar.ret = '|' → Derives .pipe ts' c' rest →
      Derives .pipe ts (.pipe c c') rest
  | lineOne {ts ts₁ rest : List Token} {c c' : Cmd} :
      Derives .pipe ts c ts₁ → Backs ts₁ c c' rest → Derives .line ts c' rest
  | lineMore {semi : Token} {ts ts₁ ts₂ rest : List Token} {c c' c'' : Cmd} :
      Derives .pipe ts c ts₁ → Backs ts₁ c c' (semi :: ts₂) → semi.ret = ';' → Derives .line ts₂ c'' rest →
      Derives .line ts (.list c' c'') rest

/-!
## Wrapping
-/

@[simp] theorem wrap_nil (cmd : Cmd) : wrap cmd [] = cmd :=
  rfl

@[simp] theorem wrap_cons (cmd : Cmd) (r : Redir) (rs : List Redir) :
    wrap cmd (r :: rs) = wrap (redirect r.tok cmd r.q r.eq) rs :=
  rfl

theorem wrap_append (cmd : Cmd) (rs rs' : List Redir) : wrap cmd (rs ++ rs') = wrap (wrap cmd rs) rs' := by
  simp only [wrap, List.foldl_append]

theorem fillArgv_redirect (tok : Char) (cmd : Cmd) (q eq : Nat) (argv : List (Nat × Nat)) :
    fillArgv (redirect tok cmd q eq) argv = redirect tok (fillArgv cmd argv) q eq := by
  unfold redirect
  split <;> rfl

theorem fillArgv_wrap (cmd : Cmd) (rs : List Redir) (argv : List (Nat × Nat)) :
    fillArgv (wrap cmd rs) argv = wrap (fillArgv cmd argv) rs := by
  induction rs generalizing cmd with
  | nil => rfl
  | cons r rs ih => rw [wrap_cons, ih, fillArgv_redirect, wrap_cons]

/-!
## Soundness
-/

section Sound

variable {es : Nat}

theorem parseredirs_sound {cmd cmd' : Cmd} {ps ps' : List Char} (h : parseredirs cmd ps es = .ok (cmd', ps')) :
    ∃ rs, Redirs (tokens es ps) rs (tokens es ps') ∧ cmd' = wrap cmd rs := by
  rw [parseredirs] at h
  split at h
  · rename_i hp
    obtain ⟨hts, hlead⟩ := tokens_of_peek (by decide) hp es
    have hlt := lt_of_le_of_lt (gettoken_rest_le _ es) (peek_gettoken_lt hp es)
    dsimp only at h
    split at h
    · cases h
    · -- the operator is followed by the word it names
      rename_i hfile
      have hfile' := not_not.mp hfile
      have hne : (gettoken (gettoken (peek ps ['<', '>']).2 es).2.2.2 es).1 ≠ '\x00' := by
        rw [hfile']
        decide
      have hts' := tokens_eq_cons hne
      obtain ⟨rs, hr, rfl⟩ := parseredirs_sound h
      refine ⟨⟨_, _, _⟩ :: rs, ?_, rfl⟩
      rw [hts, hts']
      refine Redirs.cons ?_ hfile' hr
      rw [contains_lead_redir] at hlead
      simpa using hlead
  · cases h
    rw [peek_snd, tokens_skipws]
    exact ⟨[], Redirs.nil _, rfl⟩
termination_by ps.length
decreasing_by assumption

theorem backs_sound (cmd : Cmd) (ps : List Char) :
    Backs (tokens es ps) cmd (backs cmd ps es).1 (tokens es (backs cmd ps es).2) := by
  rw [backs]
  split
  · rename_i hp
    obtain ⟨hts, hlead⟩ := tokens_of_peek (by decide) hp es
    have hlt := peek_gettoken_lt hp es
    rw [hts]
    refine Backs.cons ?_ (backs_sound _ _)
    rw [contains_lead (by decide) (by decide)] at hlead
    simpa using hlead
  · rw [peek_snd, tokens_skipws]
    exact Backs.nil _ _
termination_by ps.length
decreasing_by assumption

theorem execLoop_sound {ret ret' : Cmd} {argv argv' : List (Nat × Nat)} {ps ps' : List Char}
    (h : execLoop ret argv ps es = .ok (ret', argv', ps')) :
    ∃ ws rs, Words (tokens es ps) ws rs (tokens es ps') ∧ argv' = argv ++ ws ∧ ret' = wrap ret rs ∧
      (ws = [] ∨ argv'.length < MAXARGS) := by
  rw [execLoop] at h
  split at h
  · -- a symbol that ends the command
    cases h
    rw [peek_snd, tokens_skipws]
    exact ⟨[], [], Words.nil _, by simp, rfl, .inl rfl⟩
  · dsimp only at h
    split at h
    · -- the end of the line
      rename_i hend
      cases h
      have h₁ : tokens es ps = [] := by
        rw [← tokens_skipws]
        exact tokens_of_end hend
      rw [h₁, gettoken_rest_of_end hend, tokens_eq_nil_iff.mpr rfl]
      exact ⟨[], [], Words.nil _, by simp, rfl, .inl rfl⟩
    · split at h
      · cases h
      · rename_i hne hword
        have hword' := not_not.mp hword
        split at h
        · cases h
        · rename_i hmax
          split at h
          · cases h
          · -- a word, then the redirections after it
            rename_i ret₁ ps₁ hr
            have hts := (tokens_skipws ps es).symm.trans (tokens_eq_cons hne)
            have hlt : ps₁.length < ps.length := by
              have h₁ := parseredirs_rest_le hr
              have h₂ := gettoken_rest_lt hne
              have h₃ : (peek ps ['|', ')', '&', ';']).2.length ≤ ps.length := length_skipws_le ps
              omega
            obtain ⟨rs₁, hrs, rfl⟩ := parseredirs_sound hr
            obtain ⟨ws, rs, hw, rfl, rfl, hlen⟩ := execLoop_sound h
            let tok := gettoken (peek ps ['|', ')', '&', ';']).2 es
            refine ⟨(tok.2.1, tok.2.2.1) :: ws, rs₁ ++ rs, ?_, by simp [tok], by rw [wrap_append], .inr ?_⟩
            · rw [hts]
              exact Words.cons hword' hrs hw
            · rcases hlen with rfl | hlen
              · rw [List.append_nil]
                omega
              · exact hlen
termination_by ps.length
decreasing_by assumption

mutual

theorem parseline_sound {ps : List Char} {r : Parsed ps} (h : parseline ps es = .ok r) :
    Derives .line (tokens es ps) r.cmd (tokens es r.rest) := by
  rw [parseline] at h
  split at h
  · cases h
  · rename_i cmd ps₁ h₁ hp
    have hpipe := parsepipe_sound hp
    have hb : Backs (tokens es ps₁) cmd (backs cmd ps₁ es).1 (tokens es (backs cmd ps₁ es).2) := backs_sound cmd ps₁
    have h₂ := backs_rest_le cmd ps₁ es
    split at h
    · -- `;` and the line after it
      rename_i hs
      obtain ⟨hts, hlead⟩ := tokens_of_peek (by decide) hs es
      have h₃ := peek_gettoken_lt hs es
      split at h
      · cases h
      · rename_i right ps₄ h₄ hl
        cases h
        rw [hts] at hb
        rw [contains_lead (by decide) (by decide)] at hlead
        exact Derives.lineMore hpipe hb (by simpa using hlead) (parseline_sound hl)
    · cases h
      dsimp only
      rw [peek_snd, tokens_skipws]
      exact Derives.lineOne hpipe hb
termination_by 4 * ps.length + 3
decreasing_by all_goals (try simp only [peek_snd] at *); omega

theorem parsepipe_sound {ps : List Char} {r : Parsed ps} (h : parsepipe ps es = .ok r) :
    Derives .pipe (tokens es ps) r.cmd (tokens es r.rest) := by
  rw [parsepipe] at h
  split at h
  · cases h
  · rename_i cmd ps₁ h₁ hp
    have hexec := parseexec_sound hp
    split at h
    · -- `|` and the pipe after it
      rename_i hbar
      obtain ⟨hts, hlead⟩ := tokens_of_peek (by decide) hbar es
      have h₂ := peek_gettoken_lt hbar es
      split at h
      · cases h
      · rename_i right ps₃ h₃ hr
        cases h
        rw [hts] at hexec
        rw [contains_lead (by decide) (by decide)] at hlead
        exact Derives.pipeMore hexec (by simpa using hlead) (parsepipe_sound hr)
    · cases h
      dsimp only
      rw [peek_snd, tokens_skipws]
      exact Derives.pipeOne hexec
termination_by 4 * ps.length + 2
decreasing_by all_goals (try simp only [peek_snd] at *); omega

theorem parseexec_sound {ps : List Char} {r : Parsed ps} (h : parseexec ps es = .ok r) :
    Derives .exec (tokens es ps) r.cmd (tokens es r.rest) := by
  have h₀ := length_skipws_le ps
  rw [parseexec] at h
  split at h
  · -- a block
    split at h
    · cases h
    · rename_i cmd ps₁ h₁ hb
      cases h
      have hblock := parseblock_sound hb
      dsimp only at hblock
      rw [peek_snd, tokens_skipws] at hblock
      exact hblock
  · split at h
    · cases h
    · rename_i ret ps₁ hr
      split at h
      · cases h
      · rename_i ret' argv ps₂ hl
        cases h
        obtain ⟨rs₀, hrs, rfl⟩ := parseredirs_sound hr
        obtain ⟨ws, rs₁, hw, rfl, rfl, hlen⟩ := execLoop_sound hl
        rw [peek_snd, tokens_skipws] at hrs
        dsimp only
        rw [← wrap_append, fillArgv_wrap]
        refine Derives.simple hrs hw ?_
        rcases hlen with rfl | hlen
        · decide
        · simpa using hlen
termination_by 4 * ps.length + 1
decreasing_by all_goals (try simp only [peek_snd] at *); omega

theorem parseblock_sound {ps : List Char} {r : Parsed ps} (h : parseblock ps es = .ok r) :
    Derives .exec (tokens es ps) r.cmd (tokens es r.rest) := by
  rw [parseblock] at h
  split at h
  · rename_i hp
    obtain ⟨hts, hlead⟩ := tokens_of_peek (by decide) hp es
    have h₁ := peek_gettoken_lt hp es
    split at h
    · cases h
    · rename_i cmd ps₂ h₂ hl
      have hline := parseline_sound hl
      split at h
      · -- the `)` that closes the block, then its redirections
        rename_i hq
        obtain ⟨hts', hlead'⟩ := tokens_of_peek (by decide) hq es
        split at h
        · cases h
        · rename_i cmd' ps₄ hr
          cases h
          obtain ⟨rs, hrs, rfl⟩ := parseredirs_sound hr
          rw [hts'] at hline
          rw [hts]
          rw [contains_lead (by decide) (by decide)] at hlead hlead'
          exact Derives.block (by simpa using hlead) hline (by simpa using hlead') hrs
      · cases h
  · cases h
termination_by 4 * ps.length
decreasing_by all_goals (try simp only [peek_snd] at *); omega

end

end Sound

/-!
## Completeness
-/

/-- The tokens that may follow a phrase of each nonterminal, besides the end
of the line. -/
def follow : NT → List Char
  | .line => [')']
  | .pipe => [')', '&', ';']
  | .exec => ['|', ')', '&', ';']

/-- `rest` may follow a phrase of `N`. -/
def Follows (N : NT) (rest : List Token) : Prop :=
  ∀ t ∈ rest.head?, t.ret ∈ follow N

/-- The parse function of each nonterminal. -/
def parse : NT → (ps : List Char) → Nat → Except String (Parsed ps)
  | .line => parseline
  | .pipe => parsepipe
  | .exec => parseexec

theorem not_redir_of_follow {N : NT} {c : Char} (h : c ∈ follow N) : c ∉ ['<', '>', '+'] := by
  cases N <;> simp only [follow, List.mem_cons, List.not_mem_nil, or_false] at h <;>
    rcases h with rfl | rfl | rfl | rfl <;> decide

section Complete

variable {es : Nat}

@[simp] theorem tokens_peek_snd (ps toks : List Char) : tokens es (peek ps toks).2 = tokens es ps := by
  rw [peek_snd, tokens_skipws]

theorem gettoken_peek {ps : List Char} {t : Token} {ts : List Token} (toks : List Char) (h : tokens es ps = t :: ts) :
    ∃ rest, gettoken (peek ps toks).2 es = (t.ret, t.q, t.eq, rest) ∧ tokens es rest = ts :=
  gettoken_of_tokens (by rw [tokens_peek_snd, h])

theorem peek_of_tokens {toks : List Char} (htoks : toks ⊆ symbols) (hgt : '>' ∉ toks)
    (hplus : '+' ∉ toks) {ps : List Char} {ts : List Token} (h : tokens es ps = ts) :
    (peek ps toks).1 = ts.head?.any fun t => decide (t.ret ∈ toks) := by
  rw [peek_fst htoks ps es, h]
  cases ts with
  | nil => rfl
  | cons t ts =>
    simp only [List.head?_cons, Option.any_some]
    rw [contains_lead hgt hplus]

theorem peek_eq_true {toks : List Char} (htoks : toks ⊆ symbols) (hgt : '>' ∉ toks)
    (hplus : '+' ∉ toks) {ps : List Char} {t : Token} {ts : List Token} (h : tokens es ps = t :: ts)
    (ht : t.ret ∈ toks) : (peek ps toks).1 = true := by
  rw [peek_of_tokens htoks hgt hplus h]
  simpa using ht

theorem peek_eq_false {toks : List Char} (htoks : toks ⊆ symbols) (hgt : '>' ∉ toks)
    (hplus : '+' ∉ toks) {ps : List Char} {ts : List Token} (h : tokens es ps = ts)
    (hn : ∀ t ∈ ts.head?, t.ret ∉ toks) : (peek ps toks).1 = false := by
  rw [peek_of_tokens htoks hgt hplus h]
  cases ts with
  | nil => rfl
  | cons t ts => simpa using hn t rfl

theorem Redirs.head {ts rest : List Token} {rs : List Redir} (h : Redirs ts rs rest) :
    ∀ t ∈ ts.head?, t.ret ∈ ['<', '>', '+'] ∨ t ∈ rest.head? := by
  cases h with
  | nil => exact fun _ ht => .inr ht
  | cons hop _ _ =>
    rintro t ⟨⟩
    exact .inl hop

theorem Words.head {ts rest : List Token} {ws : List (Nat × Nat)} {rs : List Redir} (h : Words ts ws rs rest) :
    ∀ t ∈ ts.head?, t.ret = 'a' ∨ t ∈ rest.head? := by
  cases h with
  | nil => exact fun _ ht => .inr ht
  | cons hw _ _ =>
    rintro t ⟨⟩
    exact .inl hw

theorem Backs.head {ts rest : List Token} {c c' : Cmd} (h : Backs ts c c' rest) :
    ∀ t ∈ ts.head?, t.ret = '&' ∨ t ∈ rest.head? := by
  cases h with
  | nil => exact fun _ ht => .inr ht
  | cons hamp _ =>
    rintro t ⟨⟩
    exact .inl hamp

theorem Follows.mono {N N' : NT} {rest : List Token} (h : Follows N rest) (hsub : follow N ⊆ follow N') :
    Follows N' rest :=
  fun t ht => hsub (h t ht)

theorem Follows.not_mem {N : NT} {rest : List Token} {toks : List Char} (h : Follows N rest)
    (hdisj : ∀ c ∈ follow N, c ∉ toks) : ∀ t ∈ rest.head?, t.ret ∉ toks :=
  fun t ht => hdisj _ (h t ht)

theorem parseredirs_complete {ts rest : List Token} {rs : List Redir} (h : Redirs ts rs rest)
    (hf : ∀ t ∈ rest.head?, t.ret ∉ ['<', '>', '+']) :
    ∀ (cmd : Cmd) (ps : List Char), tokens es ps = ts →
      ∃ ps', parseredirs cmd ps es = .ok (wrap cmd rs, ps') ∧ tokens es ps' = rest := by
  induction h with
  | nil ts =>
    intro cmd ps hts
    have hp : (peek ps ['<', '>']).1 = false := by
      rw [peek_fst (by decide) ps es, hts]
      cases ts with
      | nil => rfl
      | cons t ts =>
        simp only [List.head?_cons, Option.any_some, contains_lead_redir, decide_eq_false_iff_not]
        exact hf t rfl
    rw [parseredirs, if_neg (by simp [hp])]
    exact ⟨_, rfl, by rw [tokens_peek_snd, hts]⟩
  | @cons op file ts rest rs hop hfile _ ih =>
    intro cmd ps hts
    have hp : (peek ps ['<', '>']).1 = true := by
      rw [peek_fst (by decide) ps es, hts]
      simp only [List.head?_cons, Option.any_some, contains_lead_redir, decide_eq_true_eq]
      exact hop
    obtain ⟨r₁, hg₁, ht₁⟩ := gettoken_peek ['<', '>'] hts
    obtain ⟨r₂, hg₂, ht₂⟩ := gettoken_of_tokens ht₁
    obtain ⟨ps', hr, hts'⟩ := ih hf (redirect op.ret cmd file.q file.eq) r₂ ht₂
    refine ⟨ps', ?_, hts'⟩
    rw [parseredirs, if_pos hp]
    dsimp only
    rw [hg₁]
    dsimp only
    rw [hg₂]
    dsimp only
    rw [if_neg (by simp [hfile]), hr, wrap_cons]

theorem backs_complete {ts rest : List Token} {c c' : Cmd} (h : Backs ts c c' rest)
    (hf : ∀ t ∈ rest.head?, t.ret ≠ '&') :
    ∀ ps, tokens es ps = ts → (backs c ps es).1 = c' ∧ tokens es (backs c ps es).2 = rest := by
  induction h with
  | nil ts c =>
    intro ps hts
    have hp : (peek ps ['&']).1 = false :=
      peek_eq_false (by decide) (by decide) (by decide) hts fun t ht hamp => hf t ht (List.mem_singleton.mp hamp)
    rw [backs, if_neg (by simp [hp])]
    exact ⟨rfl, by rw [tokens_peek_snd, hts]⟩
  | @cons amp ts rest c c' hamp _ ih =>
    intro ps hts
    have hp : (peek ps ['&']).1 = true :=
      peek_eq_true (by decide) (by decide) (by decide) hts (List.mem_singleton.mpr hamp)
    obtain ⟨r₁, hg₁, ht₁⟩ := gettoken_peek ['&'] hts
    rw [backs, if_pos hp, hg₁]
    exact ih hf r₁ ht₁

theorem execLoop_complete {ts rest : List Token} {ws : List (Nat × Nat)} {rs : List Redir}
    (h : Words ts ws rs rest) (hf : Follows .exec rest) :
    ∀ (ret : Cmd) (argv : List (Nat × Nat)) (ps : List Char), tokens es ps = ts →
      (argv ++ ws).length < MAXARGS →
      ∃ ps', execLoop ret argv ps es = .ok (wrap ret rs, argv ++ ws, ps') ∧ tokens es ps' = rest := by
  induction h with
  | nil ts =>
    intro ret argv ps hts _
    rw [wrap_nil, List.append_nil, execLoop]
    cases ts with
    | nil =>
      -- the end of the line
      have hp : (peek ps ['|', ')', '&', ';']).1 = false :=
        peek_eq_false (by decide) (by decide) (by decide) hts fun _ ht => by cases ht
      have hend : (gettoken (peek ps ['|', ')', '&', ';']).2 es).1 = '\x00' := by
        by_contra hne
        have hcons := tokens_eq_cons hne
        rw [tokens_peek_snd, hts] at hcons
        cases hcons
      rw [if_neg (by simp [hp])]
      dsimp only
      rw [dif_pos hend, gettoken_rest_of_end hend]
      exact ⟨_, rfl, tokens_eq_nil_iff.mpr rfl⟩
    | cons t ts =>
      -- a token that ends the command
      have hp : (peek ps ['|', ')', '&', ';']).1 = true :=
        peek_eq_true (by decide) (by decide) (by decide) hts (hf t rfl)
      rw [if_pos hp]
      exact ⟨_, rfl, by rw [tokens_peek_snd, hts]⟩
  | @cons w ts ts₁ rest argv rs₁ rs hw hrs hws ih =>
    intro ret argv₀ ps hts hlen
    have hp : (peek ps ['|', ')', '&', ';']).1 = false := by
      refine peek_eq_false (by decide) (by decide) (by decide) hts ?_
      rintro t ⟨⟩
      rw [hw]
      decide
    obtain ⟨r₁, hg₁, ht₁⟩ := gettoken_peek ['|', ')', '&', ';'] hts
    have hstop : ∀ t ∈ ts₁.head?, t.ret ∉ ['<', '>', '+'] := by
      intro t ht
      rcases hws.head t ht with hword | hrest
      · rw [hword]
        decide
      · exact not_redir_of_follow (hf t hrest)
    obtain ⟨ps₁, hpr, ht₂⟩ := parseredirs_complete hrs hstop ret r₁ ht₁
    obtain ⟨ps', hloop, hts'⟩ := ih hf (wrap ret rs₁) (argv₀ ++ [(w.q, w.eq)]) ps₁ ht₂ (by simpa using hlen)
    refine ⟨ps', ?_, hts'⟩
    rw [execLoop, if_neg (by simp [hp])]
    dsimp only
    rw [hg₁]
    dsimp only
    have hmax : ¬(argv₀ ++ [(w.q, w.eq)]).length ≥ MAXARGS := by
      simp only [List.length_append, List.length_cons, List.length_nil] at hlen ⊢
      omega
    rw [dif_neg (by rw [hw]; decide), if_neg (by rw [hw]; decide), if_neg hmax]
    split
    · rename_i e he
      rw [hpr] at he
      cases he
    · rename_i ret' ps'' he
      rw [hpr] at he
      cases he
      rw [hloop, wrap_append, List.append_assoc, List.singleton_append]

/-!
What each parse function returns, branch by branch, from what the calls it
makes return.
-/

theorem parseblock_ok {ps : List Char} {r : Parsed (gettoken (peek ps ['(']).2 es).2.2.2} {cmd : Cmd}
    {ps' : List Char} (hp : (peek ps ['(']).1 = true)
    (hl : parseline (gettoken (peek ps ['(']).2 es).2.2.2 es = .ok r) (hq : (peek r.rest [')']).1 = true)
    (hr : parseredirs r.cmd (gettoken (peek r.rest [')']).2 es).2.2.2 es = .ok (cmd, ps')) :
    ∃ r', parseblock ps es = .ok r' ∧ r'.cmd = cmd ∧ r'.rest = ps' := by
  obtain ⟨cmd₁, ps₂, h₂⟩ := r
  dsimp only at hq hr
  rw [parseblock, dif_pos hp]
  split
  · rename_i e he
    rw [hl] at he
    cases he
  · rename_i cmd₁' ps₂' h₂' he
    rw [hl] at he
    cases he
    rw [dif_pos hq]
    split
    · rename_i e he
      rw [hr] at he
      cases he
    · rename_i cmd₂ ps₄ he
      rw [hr] at he
      cases he
      exact ⟨_, rfl, rfl, rfl⟩

theorem parseexec_block {ps : List Char} {r : Parsed (peek ps ['(']).2} (hp : (peek ps ['(']).1 = true)
    (hb : parseblock (peek ps ['(']).2 es = .ok r) :
    ∃ r', parseexec ps es = .ok r' ∧ r'.cmd = r.cmd ∧ r'.rest = r.rest := by
  rw [parseexec, if_pos hp]
  split
  · rename_i e he
    rw [hb] at he
    cases he
  · rename_i cmd ps₁ h₁ he
    rw [hb] at he
    cases he
    exact ⟨_, rfl, rfl, rfl⟩

theorem parseexec_simple {ps ps₁ ps₂ : List Char} {ret ret' : Cmd} {argv : List (Nat × Nat)}
    (hp : (peek ps ['(']).1 = false) (h₁ : parseredirs (.exec []) (peek ps ['(']).2 es = .ok (ret, ps₁))
    (h₂ : execLoop ret [] ps₁ es = .ok (ret', argv, ps₂)) :
    ∃ r, parseexec ps es = .ok r ∧ r.cmd = fillArgv ret' argv ∧ r.rest = ps₂ := by
  rw [parseexec, if_neg (by simp [hp])]
  split
  · rename_i e he
    rw [h₁] at he
    cases he
  · rename_i ret₁ ps₁' he
    rw [h₁] at he
    cases he
    split
    · rename_i e he
      rw [h₂] at he
      cases he
    · rename_i ret₂ argv' ps₂' he
      rw [h₂] at he
      cases he
      exact ⟨_, rfl, rfl, rfl⟩

theorem parsepipe_one {ps : List Char} {r : Parsed ps} (hx : parseexec ps es = .ok r)
    (hp : (peek r.rest ['|']).1 = false) :
    ∃ r', parsepipe ps es = .ok r' ∧ r'.cmd = r.cmd ∧ r'.rest = (peek r.rest ['|']).2 := by
  obtain ⟨cmd, ps₁, h₁⟩ := r
  dsimp only at hp ⊢
  rw [parsepipe, hx]
  dsimp only
  rw [dif_neg (by simp [hp])]
  exact ⟨_, rfl, rfl, rfl⟩

theorem parsepipe_more {ps : List Char} {r : Parsed ps} {r₂ : Parsed (gettoken (peek r.rest ['|']).2 es).2.2.2}
    (hx : parseexec ps es = .ok r) (hp : (peek r.rest ['|']).1 = true)
    (hr : parsepipe (gettoken (peek r.rest ['|']).2 es).2.2.2 es = .ok r₂) :
    ∃ r', parsepipe ps es = .ok r' ∧ r'.cmd = .pipe r.cmd r₂.cmd ∧ r'.rest = r₂.rest := by
  obtain ⟨cmd, ps₁, h₁⟩ := r
  dsimp only at hp hr r₂ ⊢
  rw [parsepipe, hx]
  dsimp only
  rw [dif_pos hp, hr]
  exact ⟨_, rfl, rfl, rfl⟩

theorem parseline_one {ps : List Char} {r : Parsed ps} (hx : parsepipe ps es = .ok r)
    (hs : (peek (backs r.cmd r.rest es).2 [';']).1 = false) :
    ∃ r', parseline ps es = .ok r' ∧ r'.cmd = (backs r.cmd r.rest es).1 ∧
      r'.rest = (peek (backs r.cmd r.rest es).2 [';']).2 := by
  obtain ⟨cmd, ps₁, h₁⟩ := r
  dsimp only at hs ⊢
  rw [parseline, hx]
  dsimp only
  rw [dif_neg (by simp [hs])]
  exact ⟨_, rfl, rfl, rfl⟩

theorem parseline_more {ps : List Char} {r : Parsed ps}
    {r₂ : Parsed (gettoken (peek (backs r.cmd r.rest es).2 [';']).2 es).2.2.2}
    (hx : parsepipe ps es = .ok r) (hs : (peek (backs r.cmd r.rest es).2 [';']).1 = true)
    (hl : parseline (gettoken (peek (backs r.cmd r.rest es).2 [';']).2 es).2.2.2 es = .ok r₂) :
    ∃ r', parseline ps es = .ok r' ∧ r'.cmd = .list (backs r.cmd r.rest es).1 r₂.cmd ∧ r'.rest = r₂.rest := by
  obtain ⟨cmd, ps₁, h₁⟩ := r
  dsimp only at hs hl r₂ ⊢
  rw [parseline, hx]
  dsimp only
  rw [dif_pos hs, hl]
  exact ⟨_, rfl, rfl, rfl⟩

theorem parse_complete {N : NT} {ts rest : List Token} {c : Cmd} (h : Derives N ts c rest)
    (hf : Follows N rest) :
    ∀ ps, tokens es ps = ts → ∃ r, parse N ps es = .ok r ∧ r.cmd = c ∧ tokens es r.rest = rest := by
  induction h with
  | @block lp rp ts ts' rest c rs hlp _ hrp hrs ih =>
    intro ps hts
    -- `parseexec` sees the `(`, and `parseblock` sees it again
    have hp : (peek ps ['(']).1 = true := by
      rw [peek_of_tokens (by decide) (by decide) (by decide) hts]
      simp [hlp]
    have hp' : (peek (peek ps ['(']).2 ['(']).1 = true := by
      rw [peek_of_tokens (by decide) (by decide) (by decide) ((tokens_peek_snd ps ['(']).trans hts)]
      simp [hlp]
    obtain ⟨r₁, hg₁, ht₁⟩ := gettoken_peek ['('] ((tokens_peek_snd ps ['(']).trans hts)
    obtain ⟨rl, hl, hlc, ht₂⟩ :=
      ih (by simp [Follows, follow, hrp]) (gettoken (peek (peek ps ['(']).2 ['(']).2 es).2.2.2 (by rw [hg₁]; exact ht₁)
    have hq : (peek rl.rest [')']).1 = true := by
      rw [peek_of_tokens (by decide) (by decide) (by decide) ht₂]
      simp [hrp]
    obtain ⟨r₃, hg₃, ht₃⟩ := gettoken_peek [')'] ht₂
    obtain ⟨ps₄, hr, ht₄⟩ := parseredirs_complete hrs (fun t ht => not_redir_of_follow (hf t ht)) rl.cmd r₃ ht₃
    obtain ⟨rb, hb, hbc, hbr⟩ := parseblock_ok hp' hl hq (by rw [hg₃]; exact hr)
    obtain ⟨r, hx, hxc, hxr⟩ := parseexec_block hp hb
    exact ⟨r, hx, by rw [hxc, hbc, hlc], by rw [hxr, hbr, ht₄]⟩
  | @simple ts ts₀ rest rs₀ rs₁ argv hrs hw hlen =>
    intro ps hts
    -- the phrase starts with a redirection, a word, or what follows it: never `(`
    have hp : (peek ps ['(']).1 = false := by
      refine peek_eq_false (by decide) (by decide) (by decide) hts fun t ht => ?_
      rcases hrs.head t ht with hop | ht₀
      · intro h
        rw [List.mem_singleton.mp h] at hop
        exact absurd hop (by decide)
      · rcases hw.head t ht₀ with hword | hrest
        · rw [hword]
          decide
        · exact hf.not_mem (by simp [follow]) t hrest
    have hstop : ∀ t ∈ ts₀.head?, t.ret ∉ ['<', '>', '+'] := by
      intro t ht
      rcases hw.head t ht with hword | hrest
      · rw [hword]
        decide
      · exact not_redir_of_follow (hf t hrest)
    obtain ⟨ps₁, h₁, ht₁⟩ :=
      parseredirs_complete hrs hstop (.exec []) (peek ps ['(']).2 (by rw [tokens_peek_snd, hts])
    obtain ⟨ps₂, h₂, ht₂⟩ := execLoop_complete hw hf _ [] ps₁ ht₁ (by simpa using hlen)
    obtain ⟨r, hx, hxc, hxr⟩ := parseexec_simple hp h₁ h₂
    refine ⟨r, hx, ?_, by rw [hxr, ht₂]⟩
    rw [hxc, List.nil_append, ← wrap_append, fillArgv_wrap]
    rfl
  | @pipeOne ts rest c _ ih =>
    intro ps hts
    obtain ⟨rx, hx, hxc, hxt⟩ := ih (hf.mono (by decide)) ps hts
    have hp : (peek rx.rest ['|']).1 = false :=
      peek_eq_false (by decide) (by decide) (by decide) hxt (hf.not_mem (by simp [follow]))
    obtain ⟨r, h, hc, hr⟩ := parsepipe_one hx hp
    exact ⟨r, h, hc.trans hxc, by rw [hr, tokens_peek_snd, hxt]⟩
  | @pipeMore bar ts ts' rest c c' _ hbar _ ih₁ ih₂ =>
    intro ps hts
    obtain ⟨rx, hx, hxc, hxt⟩ := ih₁ (by simp [Follows, follow, hbar]) ps hts
    have hp : (peek rx.rest ['|']).1 = true := peek_eq_true (by decide) (by decide) (by decide) hxt (by simp [hbar])
    obtain ⟨r₁, hg₁, ht₁⟩ := gettoken_peek ['|'] hxt
    obtain ⟨rp, hrp, hpc, hpt⟩ := ih₂ hf (gettoken (peek rx.rest ['|']).2 es).2.2.2 (by rw [hg₁]; exact ht₁)
    obtain ⟨r, h, hc, hr⟩ := parsepipe_more hx hp hrp
    exact ⟨r, h, by rw [hc, hxc, hpc], by rw [hr, hpt]⟩
  | @lineOne ts ts₁ rest c c' _ hb ih =>
    intro ps hts
    -- what follows the pipe is an `&` or what follows the line
    have hf₁ : Follows .pipe ts₁ := by
      intro t ht
      rcases hb.head t ht with hamp | hrest
      · simp [follow, hamp]
      · exact hf.mono (by decide) t hrest
    obtain ⟨rp, hp, hpc, hpt⟩ := ih hf₁ ps hts
    have hamp : ∀ t ∈ rest.head?, t.ret ≠ '&' := fun t ht hamp =>
      hf.not_mem (by simp [follow] : ∀ c ∈ follow .line, c ∉ ['&']) t ht (List.mem_singleton.mpr hamp)
    obtain ⟨hbc, hbt⟩ := backs_complete hb hamp rp.rest hpt
    have hs : (peek (backs rp.cmd rp.rest es).2 [';']).1 = false := by
      rw [hpc]
      exact peek_eq_false (by decide) (by decide) (by decide) hbt (hf.not_mem (by simp [follow]))
    obtain ⟨r, h, hc, hr⟩ := parseline_one hp hs
    exact ⟨r, h, by rw [hc, hpc, hbc], by rw [hr, tokens_peek_snd, hpc, hbt]⟩
  | @lineMore semi ts ts₁ ts₂ rest c c' c'' _ hb hsemi _ ih₁ ih₂ =>
    intro ps hts
    have hf₁ : Follows .pipe ts₁ := by
      intro t ht
      rcases hb.head t ht with hamp | hrest
      · simp [follow, hamp]
      · rw [Option.mem_def, List.head?_cons, Option.some.injEq] at hrest
        subst hrest
        simp [follow, hsemi]
    obtain ⟨rp, hp, hpc, hpt⟩ := ih₁ hf₁ ps hts
    obtain ⟨hbc, hbt⟩ := backs_complete hb (by rintro t ⟨⟩; rw [hsemi]; decide) rp.rest hpt
    rw [← hpc] at hbc hbt
    have hs : (peek (backs rp.cmd rp.rest es).2 [';']).1 = true :=
      peek_eq_true (by decide) (by decide) (by decide) hbt (by simp [hsemi])
    obtain ⟨r₁, hg₁, ht₁⟩ := gettoken_peek [';'] hbt
    obtain ⟨rl, hl, hlc, hlt⟩ :=
      ih₂ hf (gettoken (peek (backs rp.cmd rp.rest es).2 [';']).2 es).2.2.2 (by rw [hg₁]; exact ht₁)
    obtain ⟨r, h, hc, hr⟩ := parseline_more hp hs hl
    exact ⟨r, h, by rw [hc, hbc, hlc], by rw [hr, hlt]⟩

end Complete

end Sh

end Xv6

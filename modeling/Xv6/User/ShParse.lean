import Xv6.User.ShToken

/-!
# The shell's parser

`parsecmd` parses a command line by recursive descent: `parseline` for
`line := pipe '&'* [';' line]`, `parsepipe` for `pipe := exec ['|' pipe]`,
`parseexec` for `exec := '(' line ')' redirs | redirs (word redirs)*`, with
`parseblock` for the first form, and `parseredirs` for
`redirs := (('<' | '>' | '>>') word)*`.  Each `panic` is an error with its
text.  `nulterminate` then writes a `NUL` after each word the tree points
to.

`parseexec` fills its `execcmd` in place while the redirections read after
each word wrap it.  Here the words are collected and set into the `execcmd`
under the redirections at the end, in `fillArgv`.

Every parse function stops at or before where it started.  That is the
field `rest_le` of what it returns, and it makes the recursion terminate:
each recursive call past the one that goes down a level consumes a token.
-/

namespace Xv6

namespace Sh

/-- `MAXARGS`. -/
def MAXARGS : Nat := 10

def O_RDONLY : Nat := 0x000
def O_WRONLY : Nat := 0x001
def O_CREATE : Nat := 0x200

/-- `struct cmd` of each kind; a pointer into the line is its offset. -/
inductive Cmd
  /-- `struct execcmd`: `argv[i]` and `eargv[i]` of each word. -/
  | exec (argv : List (Nat × Nat))
  | redir (cmd : Cmd) (file efile : Nat) (mode fd : Nat)
  | pipe (left right : Cmd)
  | list (left right : Cmd)
  | back (cmd : Cmd)
  deriving DecidableEq, Repr

/-- The `switch(tok)` of `parseredirs`: `cmd` redirected to the word at
`q`..`eq`. -/
def redirect (tok : Char) (cmd : Cmd) (q eq : Nat) : Cmd :=
  match tok with
  | '<' => .redir cmd q eq O_RDONLY 0
  | '>' => .redir cmd q eq (O_WRONLY ||| O_CREATE) 1
  | '+' => .redir cmd q eq (O_WRONLY ||| O_CREATE) 1
  | _ => cmd

/-- `parseredirs(cmd, ps, es)`: `cmd` wrapped in each redirection in turn. -/
def parseredirs (cmd : Cmd) (ps : List Char) (es : Nat) : Except String (Cmd × List Char) :=
  if (peek ps ['<', '>']).1 then
    let tok := gettoken (peek ps ['<', '>']).2 es
    let file := gettoken tok.2.2.2 es
    if file.1 ≠ 'a' then .error "missing file for redirection"
    else parseredirs (redirect tok.1 cmd file.2.1 file.2.2.1) file.2.2.2 es
  else .ok (cmd, (peek ps ['<', '>']).2)
termination_by ps.length
decreasing_by exact lt_of_le_of_lt (gettoken_rest_le _ _) (peek_gettoken_lt ‹_› es)

/-- The loop of `parseline` over `&`: each wraps the command in a
`backcmd`. -/
def backs (cmd : Cmd) (ps : List Char) (es : Nat) : Cmd × List Char :=
  if (peek ps ['&']).1 then backs (.back cmd) (gettoken (peek ps ['&']).2 es).2.2.2 es
  else (cmd, (peek ps ['&']).2)
termination_by ps.length
decreasing_by exact peek_gettoken_lt ‹_› es

theorem parseredirs_rest_le {cmd cmd' : Cmd} {ps ps' : List Char} {es : Nat}
    (h : parseredirs cmd ps es = .ok (cmd', ps')) : ps'.length ≤ ps.length := by
  rw [parseredirs] at h
  split at h
  · rename_i hp
    dsimp only at h
    split at h
    · cases h
    · have hlt := lt_of_le_of_lt (gettoken_rest_le _ es) (peek_gettoken_lt hp es)
      have ih := parseredirs_rest_le h
      omega
  · cases h
    exact length_skipws_le ps
termination_by ps.length
decreasing_by assumption

theorem backs_rest_le (cmd : Cmd) (ps : List Char) (es : Nat) : (backs cmd ps es).2.length ≤ ps.length := by
  rw [backs]
  split
  · rename_i hp
    have hlt := peek_gettoken_lt hp es
    have ih := backs_rest_le (.back cmd) (gettoken (peek ps ['&']).2 es).2.2.2 es
    omega
  · exact length_skipws_le ps
termination_by ps.length
decreasing_by assumption

/-- The loop of `parseexec` over the words: `ret` is the command so far, the
`execcmd` under the redirections read so far, and `argv` its words. -/
def execLoop (ret : Cmd) (argv : List (Nat × Nat)) (ps : List Char) (es : Nat) :
    Except String (Cmd × List (Nat × Nat) × List Char) :=
  if (peek ps ['|', ')', '&', ';']).1 then .ok (ret, argv, (peek ps ['|', ')', '&', ';']).2)
  else
    let tok := gettoken (peek ps ['|', ')', '&', ';']).2 es
    if h : tok.1 = '\x00' then .ok (ret, argv, tok.2.2.2)
    else if tok.1 ≠ 'a' then .error "syntax"
    else
      let argv := argv ++ [(tok.2.1, tok.2.2.1)]
      if argv.length ≥ MAXARGS then .error "too many args"
      else
        match hr : parseredirs ret tok.2.2.2 es with
        | .error e => .error e
        | .ok (ret, ps') =>
            have : ps'.length < ps.length := by
              have h₁ := parseredirs_rest_le hr
              have h₂ : tok.2.2.2.length < (peek ps ['|', ')', '&', ';']).2.length := gettoken_rest_lt h
              have h₃ : (peek ps ['|', ')', '&', ';']).2.length ≤ ps.length := length_skipws_le ps
              omega
            execLoop ret argv ps' es
termination_by ps.length

theorem execLoop_rest_le {ret ret' : Cmd} {argv argv' : List (Nat × Nat)} {ps ps' : List Char} {es : Nat}
    (h : execLoop ret argv ps es = .ok (ret', argv', ps')) : ps'.length ≤ ps.length := by
  rw [execLoop] at h
  have h₀ : (peek ps ['|', ')', '&', ';']).2.length ≤ ps.length := length_skipws_le ps
  split at h
  · cases h
    exact h₀
  · dsimp only at h
    split at h
    · cases h
      have := gettoken_rest_le (peek ps ['|', ')', '&', ';']).2 es
      omega
    · split at h
      · cases h
      · split at h
        · cases h
        · split at h
          · cases h
          · rename_i hne _ _ ret₁ ps₁ hr
            have h₁ := parseredirs_rest_le hr
            have h₂ := gettoken_rest_lt hne
            have hlt : ps₁.length < ps.length := by omega
            have ih := execLoop_rest_le h
            omega
termination_by ps.length
decreasing_by assumption

/-- The tree with the words `argv` set into the `execcmd` under its
redirections. -/
def fillArgv : Cmd → List (Nat × Nat) → Cmd
  | .redir cmd file efile mode fd, argv => .redir (fillArgv cmd argv) file efile mode fd
  | .exec _, argv => .exec argv
  | cmd, _ => cmd

/-- What a parse function returns: the command and the cursor after it,
never past where it started. -/
structure Parsed (ps : List Char) where
  cmd : Cmd
  rest : List Char
  rest_le : rest.length ≤ ps.length

mutual

/-- `parseline(ps, es)`. -/
def parseline (ps : List Char) (es : Nat) : Except String (Parsed ps) :=
  match parsepipe ps es with
  | .error e => .error e
  | .ok ⟨cmd, ps₁, h₁⟩ =>
      have h₂ := backs_rest_le cmd ps₁ es
      if hs : (peek (backs cmd ps₁ es).2 [';']).1 then
        have h₃ := peek_gettoken_lt hs es
        match parseline (gettoken (peek (backs cmd ps₁ es).2 [';']).2 es).2.2.2 es with
        | .error e => .error e
        | .ok ⟨right, ps₄, h₄⟩ => .ok ⟨.list (backs cmd ps₁ es).1 right, ps₄, by omega⟩
      else
        have h₃ := length_skipws_le (backs cmd ps₁ es).2
        .ok ⟨(backs cmd ps₁ es).1, (peek (backs cmd ps₁ es).2 [';']).2, by rw [peek_snd]; omega⟩
termination_by 4 * ps.length + 3
decreasing_by all_goals (try simp only [peek_snd] at *); omega

/-- `parsepipe(ps, es)`. -/
def parsepipe (ps : List Char) (es : Nat) : Except String (Parsed ps) :=
  match parseexec ps es with
  | .error e => .error e
  | .ok ⟨cmd, ps₁, h₁⟩ =>
      if hp : (peek ps₁ ['|']).1 then
        have h₂ := peek_gettoken_lt hp es
        match parsepipe (gettoken (peek ps₁ ['|']).2 es).2.2.2 es with
        | .error e => .error e
        | .ok ⟨right, ps₃, h₃⟩ => .ok ⟨.pipe cmd right, ps₃, by omega⟩
      else
        have h₂ := length_skipws_le ps₁
        .ok ⟨cmd, (peek ps₁ ['|']).2, by rw [peek_snd]; omega⟩
termination_by 4 * ps.length + 2
decreasing_by all_goals (try simp only [peek_snd] at *); omega

/-- `parseexec(ps, es)`. -/
def parseexec (ps : List Char) (es : Nat) : Except String (Parsed ps) :=
  have h₀ := length_skipws_le ps
  if (peek ps ['(']).1 then
    match parseblock (peek ps ['(']).2 es with
    | .error e => .error e
    | .ok ⟨cmd, ps₁, h₁⟩ => .ok ⟨cmd, ps₁, by rw [peek_snd] at h₁; omega⟩
  else
    -- `ret = execcmd()`, then the redirections before the first word
    match h₁ : parseredirs (.exec []) (peek ps ['(']).2 es with
    | .error e => .error e
    | .ok (ret, ps₁) =>
        match h₂ : execLoop ret [] ps₁ es with
        | .error e => .error e
        | .ok (ret, argv, ps₂) =>
            have h₃ := parseredirs_rest_le h₁
            have h₄ := execLoop_rest_le h₂
            .ok ⟨fillArgv ret argv, ps₂, by rw [peek_snd] at h₃; omega⟩
termination_by 4 * ps.length + 1
decreasing_by all_goals (try simp only [peek_snd] at *); omega

/-- `parseblock(ps, es)`. -/
def parseblock (ps : List Char) (es : Nat) : Except String (Parsed ps) :=
  if hp : (peek ps ['(']).1 then
    have h₁ := peek_gettoken_lt hp es
    match parseline (gettoken (peek ps ['(']).2 es).2.2.2 es with
    | .error e => .error e
    | .ok ⟨cmd, ps₂, h₂⟩ =>
        if hq : (peek ps₂ [')']).1 then
          have h₃ := peek_gettoken_lt hq es
          match h₄ : parseredirs cmd (gettoken (peek ps₂ [')']).2 es).2.2.2 es with
          | .error e => .error e
          | .ok (cmd, ps₄) =>
              have h₅ := parseredirs_rest_le h₄
              .ok ⟨cmd, ps₄, by omega⟩
        else .error "syntax - missing )"
  else .error "parseblock"
termination_by 4 * ps.length
decreasing_by all_goals (try simp only [peek_snd] at *); omega

end

/-- `nulterminate(cmd)` on the buffer `b` of the line: a `NUL` written after
each word the tree points to. -/
def nulterminate (b : List Char) : Cmd → List Char
  | .exec argv => argv.foldl (fun b w => b.set w.2 '\x00') b
  | .redir cmd _ efile _ _ => (nulterminate b cmd).set efile '\x00'
  | .pipe left right => nulterminate (nulterminate b left) right
  | .list left right => nulterminate (nulterminate b left) right
  | .back cmd => nulterminate b cmd

/-- `strlen(s)`. -/
def strlen (b : List Char) : Nat :=
  (b.takeWhile (· ≠ '\x00')).length

/-- `parsecmd(s)` of the buffer `b`: the tree and the buffer after
`nulterminate`.  The line is the bytes before the first `NUL`; what is left
after `parseline` past the blanks is `panic("syntax")`. -/
def parsecmd (b : List Char) : Except String (Cmd × List Char) :=
  let es := strlen b
  match parseline (b.take es) es with
  | .error e => .error e
  | .ok ⟨cmd, ps, _⟩ =>
      if (peek ps []).2 ≠ [] then .error "syntax"
      else .ok (cmd, nulterminate b cmd)

end Sh

end Xv6

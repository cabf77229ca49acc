import Xv6Prng.Library.Halting
import Xv6Prng.Library.Scan
import Xv6Prng.ShGrammar

/-!
# The parser of `sh.c`

The parser moves a pointer over the line and leaves pointers to the two ends of each word in the
tree; only when the whole line is parsed does `nulterminate` write a NUL at each end. A pointer
is an index into the line, and index `buf.length` holds the NUL of the line. `malloc` does not
fail here, and the stack has no bound.

The parser does on the characters what the descent of the grammar does on the tokens, and a
write of `nulterminate` is always at a place that is no character of a word.
-/

namespace Xv6Prng.Sh

open ByteWords Halting Scan Function

inductive Failure
  | panic (msg : String)
  | outOfBounds
  | fuel
  deriving DecidableEq

abbrev ParseM := EStateM Failure ℕ

/-- `char *argv[MAXARGS]` and `char *eargv[MAXARGS]` of an `execcmd`. -/
structure Args where
  argv : List (Option ℕ)
  eargv : List (Option ℕ)

structure Wrap where
  file : ℕ
  efile : ℕ
  mode : ℕ
  fd : ℕ

inductive Cmd
  | exec (args : Args)
  | redir (cmd : Cmd) (wrap : Wrap)
  | pipe (left right : Cmd)
  | list (left right : Cmd)
  | back (cmd : Cmd)

/-- What `gettoken` returns, and what it stores at `q` and `eq`. -/
structure Scanned where
  ret : Byte
  q : ℕ
  eq : ℕ

def Args.empty : Args := ⟨List.replicate MAXARGS none, List.replicate MAXARGS none⟩

def Args.put (a : Args) (i : ℕ) (q eq : Option ℕ) : ParseM Args :=
  if i < a.argv.length ∧ i < a.eargv.length then pure ⟨a.argv.set i q, a.eargv.set i eq⟩
  else throw .outOfBounds

def Cmd.redirected (cmd : Cmd) (wraps : List Wrap) : Cmd := wraps.foldl .redir cmd

section Code

variable (buf : List Byte)

def charAt (s : ℕ) : Byte := buf.getD s 0

def skipSpace (s : ℕ) : ℕ := advance buf isSpace (buf.length - s) s

/-- The `switch` of `gettoken`: what it returns and where the token ends. -/
def scanToken (s : ℕ) : Byte × ℕ :=
  let c := charAt buf s
  if c = 0 then (c, s)
  else if c = ch '|' ∨ c = ch '(' ∨ c = ch ')' ∨ c = ch ';' ∨ c = ch '&' ∨ c = ch '<' then
    (c, s + 1)
  else if c = ch '>' then
    if charAt buf (s + 1) = ch '>' then (ch '+', s + 2) else (c, s + 1)
  else (ch 'a', advance buf isWordChar (buf.length - s) s)

def gettoken : ParseM Scanned := do
  let s := skipSpace buf (← get)
  let (ret, e) := scanToken buf s
  set (skipSpace buf e)
  pure ⟨ret, s, e⟩

def peek (toks : List Byte) : ParseM Bool := do
  let s := skipSpace buf (← get)
  set s
  pure (charAt buf s ≠ 0 ∧ toks.contains (charAt buf s))

def wrapOf (tok : Byte) (f : Scanned) : List Wrap :=
  if tok = ch '<' then [⟨f.q, f.eq, 0, 0⟩]
  else if tok = ch '>' ∨ tok = ch '+' then [⟨f.q, f.eq, 0x201, 1⟩]
  else []

/-- The redirections are listed in the order in which they are wrapped around the command:
the node of a simple command is still being filled when they are read. -/
def parseredirs : ℕ → List Wrap → ParseM (List Wrap)
  | 0, _ => throw .fuel
  | k + 1, wraps => do
    if ← peek buf [ch '<', ch '>'] then do
      let tok ← gettoken buf
      let f ← gettoken buf
      if f.ret ≠ ch 'a' then throw (.panic "missing file for redirection")
      else parseredirs k (wraps ++ wrapOf tok.ret f)
    else pure wraps

def parseback : ℕ → Cmd → ParseM Cmd
  | 0, _ => throw .fuel
  | k + 1, cmd => do
    if ← peek buf [ch '&'] then do
      let _ ← gettoken buf
      parseback k (.back cmd)
    else pure cmd

def parseargs : ℕ → Args → ℕ → List Wrap → ParseM (Args × ℕ × List Wrap)
  | 0, _, _, _ => throw .fuel
  | k + 1, a, argc, wraps => do
    if ← peek buf [ch '|', ch ')', ch '&', ch ';'] then pure (a, argc, wraps)
    else do
      let tok ← gettoken buf
      if tok.ret = 0 then pure (a, argc, wraps)
      else if tok.ret ≠ ch 'a' then throw (.panic "syntax")
      else do
        let a ← a.put argc (some tok.q) (some tok.eq)
        if argc + 1 ≥ MAXARGS then throw (.panic "too many args")
        else do
          let wraps ← parseredirs buf (buf.length + 1) wraps
          parseargs k a (argc + 1) wraps

def parseblock (parseline : ParseM Cmd) : ParseM Cmd := do
  if ← peek buf [ch '('] then do
    let _ ← gettoken buf
    let cmd ← parseline
    if ← peek buf [ch ')'] then do
      let _ ← gettoken buf
      let wraps ← parseredirs buf (buf.length + 1) []
      pure (cmd.redirected wraps)
    else throw (.panic "syntax - missing )")
  else throw (.panic "parseblock")

def parsesimple : ParseM Cmd := do
  let wraps ← parseredirs buf (buf.length + 1) []
  let (a, argc, wraps) ← parseargs buf (buf.length + 1) .empty 0 wraps
  let a ← a.put argc none none
  pure ((Cmd.exec a).redirected wraps)

mutual

def parseline : ℕ → ParseM Cmd
  | 0 => throw .fuel
  | k + 1 => do
    let cmd ← parsepipe k
    let cmd ← parseback buf (buf.length + 1) cmd
    if ← peek buf [ch ';'] then do
      let _ ← gettoken buf
      let rest ← parseline k
      pure (.list cmd rest)
    else pure cmd

def parsepipe : ℕ → ParseM Cmd
  | 0 => throw .fuel
  | k + 1 => do
    let cmd ← parseexec k
    if ← peek buf [ch '|'] then do
      let _ ← gettoken buf
      let rest ← parsepipe k
      pure (.pipe cmd rest)
    else pure cmd

def parseexec : ℕ → ParseM Cmd
  | 0 => throw .fuel
  | k + 1 => do
    if ← peek buf [ch '('] then parseblock buf (parseline k)
    else parsesimple buf

end

def parse : ParseM Cmd := do
  let cmd ← parseline buf (4 * buf.length + 4)
  let _ ← peek buf []
  let s ← get
  if s ≠ buf.length then throw (.panic "syntax") else pure cmd

end Code

abbrev NulM := EStateM Failure (List Byte)

def putNul (p : ℕ) : NulM Unit := do
  let m ← get
  if p < m.length then set (m.set p 0) else throw .outOfBounds

def nulArgs (a : Args) : ℕ → ℕ → NulM Unit
  | 0, _ => throw .fuel
  | k + 1, i =>
    match a.argv[i]?, a.eargv[i]? with
    | none, _ => throw .outOfBounds
    | some none, _ => pure ()
    | some (some _), some (some e) => do
      putNul e
      nulArgs a k (i + 1)
    | some (some _), _ => throw .outOfBounds

def nulterminate : Cmd → NulM Unit
  | .exec a => nulArgs a (MAXARGS + 1) 0
  | .redir cmd w => do
    nulterminate cmd
    putNul w.efile
  | .pipe left right => do
    nulterminate left
    nulterminate right
  | .list left right => do
    nulterminate left
    nulterminate right
  | .back cmd => nulterminate cmd

def parsecmd (buf : List Byte) : Except Failure (Cmd × List Byte) :=
  match (parse buf).run 0 with
  | .error e _ => .error e
  | .ok cmd _ =>
    match (nulterminate cmd).run (buf ++ [0]) with
    | .error e _ => .error e
    | .ok _ m => .ok (cmd, m)

def Cmd.read (m : List Byte) : Cmd → Tree
  | .exec a => .exec ((a.argv.takeWhile Option.isSome).map fun p => stringAt 0 m (p.getD 0))
  | .redir cmd w => .redir (cmd.read m) (stringAt 0 m w.file) w.mode w.fd
  | .pipe left right => .pipe (left.read m) (right.read m)
  | .list left right => .list (left.read m) (right.read m)
  | .back cmd => .back (cmd.read m)

def Token.code : Token → Byte
  | bar => ch '|'
  | lpar => ch '('
  | rpar => ch ')'
  | semi => ch ';'
  | amp => ch '&'
  | lt => ch '<'
  | gt => ch '>'
  | gtgt => ch '+'
  | word _ => ch 'a'

def Token.look : Token → Byte
  | gtgt => ch '>'
  | word _ => 0
  | t => t.code

def sees (toks : List Byte) : List Token → Bool
  | [] => false
  | t :: _ => toks.contains t.look

structure IsWord (buf : List Byte) (q e : ℕ) (w : List Byte) : Prop where
  drop_eq : buf.drop q = w ++ buf.drop e
  stop : e = q + w.length
  le : e ≤ buf.length
  chars : ∀ c ∈ w, isWordChar c
  boundary : ∀ c, buf[e]? = some c → isWordChar c = false

def At (buf : List Byte) (s : ℕ) (ts : List Token) : Prop :=
  s ≤ buf.length ∧ tokenize (buf.drop s) = ts

variable {t : Token} {a : Args} {spans : List (ℕ × ℕ)} {k : ℕ}

section Tokens

variable {buf : List Byte} {s : ℕ} {ts : List Token} {c : Byte} {cs : List Byte}

theorem getElem?_of_drop (h : buf.drop s = c :: cs) : buf[s]? = some c := by
  have h0 : (buf.drop s)[0]? = some c := by rw [h]; rfl
  rwa [List.getElem?_drop, add_zero] at h0

theorem charAt_of_drop (h : buf.drop s = c :: cs) : charAt buf s = c := by
  rw [charAt, List.getD_eq_getElem?_getD, getElem?_of_drop h, Option.getD_some]

theorem charAt_of_drop_nil (h : buf.drop s = []) : charAt buf s = 0 := by
  rw [charAt, List.getD_eq_getElem?_getD, List.getElem?_eq_none (List.drop_eq_nil_iff.mp h),
    Option.getD_none]

theorem drop_succ_of_drop (h : buf.drop s = c :: cs) : buf.drop (s + 1) = cs := by
  rw [← List.drop_drop, h]
  rfl

theorem le_of_drop (h : buf.drop s = c :: cs) : s + 1 ≤ buf.length := by
  have hlen := congrArg List.length h
  rw [List.length_drop, List.length_cons] at hlen
  omega

theorem drop_skipSpace (buf : List Byte) (s : ℕ) :
    buf.drop (skipSpace buf s) = (buf.drop s).dropWhile isSpace :=
  drop_advance buf isSpace (by omega)

theorem At.skip (h : At buf s ts) : At buf (skipSpace buf s) ts := by
  refine ⟨advance_le buf isSpace (by omega) h.1, ?_⟩
  rw [drop_skipSpace, tokenize_dropWhile, h.2]

theorem notSpace_of_skip (h : buf.drop (skipSpace buf s) = c :: cs) : isSpace c = false := by
  rw [drop_skipSpace] at h
  have hhead := List.head?_dropWhile_not isSpace (buf.drop s)
  rw [h] at hhead
  simpa using hhead

theorem symbol?_spec (h : symbol? c = some t) :
    (c = ch '|' ∨ c = ch '(' ∨ c = ch ')' ∨ c = ch ';' ∨ c = ch '&' ∨ c = ch '<') ∧
      t.look = c ∧ t.code = c ∧ ∀ w, t ≠ .word w := by
  rw [symbol?] at h
  split_ifs at h with h₁ h₂ h₃ h₄ h₅ h₆ <;> cases h <;> simp_all [Token.look, Token.code]

theorem symbol?_none (h : symbol? c = none) :
    ¬ (c = ch '|' ∨ c = ch '(' ∨ c = ch ')' ∨ c = ch ';' ∨ c = ch '&' ∨ c = ch '<') := by
  rw [symbol?] at h
  split_ifs at h with h₁ h₂ h₃ h₄ h₅ h₆
  simp_all

theorem isWordChar_of (hspace : isSpace c = false) (hsym : symbol? c = none)
    (hgt : c ≠ ch '>') : isWordChar c := by
  have hnot := symbol?_none hsym
  simp only [not_or] at hnot
  have hspace : whitespace.contains c = false := hspace
  have hsymbols : symbols.contains c = false := by simp [symbols, hnot, hgt]
  rw [isWordChar, hspace, hsymbols]
  rfl

theorem tokenize_cases (cs : List Byte) (hspace : isSpace c = false) :
    (∃ t, symbol? c = some t ∧ tokenize (c :: cs) = t :: tokenize cs) ∨
    (symbol? c = none ∧ c = ch '>' ∧ cs.head? = some (ch '>') ∧
      tokenize (c :: cs) = .gtgt :: tokenize cs.tail) ∨
    (symbol? c = none ∧ c = ch '>' ∧ cs.head? ≠ some (ch '>') ∧
      tokenize (c :: cs) = .gt :: tokenize cs) ∨
    (symbol? c = none ∧ c ≠ ch '>' ∧ tokenize (c :: cs) =
      .word (c :: cs.takeWhile isWordChar) :: tokenize (cs.dropWhile isWordChar)) := by
  rw [tokenize, if_neg (by simp [hspace])]
  cases hsym : symbol? c with
  | some t => exact Or.inl ⟨t, rfl, rfl⟩
  | none =>
    dsimp only
    by_cases hgt : c = ch '>'
    · rw [if_pos hgt]
      by_cases hnext : cs.head? = some (ch '>')
      · rw [if_pos hnext]
        exact Or.inr (Or.inl ⟨rfl, hgt, hnext, rfl⟩)
      · rw [if_neg hnext]
        exact Or.inr (Or.inr (Or.inl ⟨rfl, hgt, hnext, rfl⟩))
    · rw [if_neg hgt]
      exact Or.inr (Or.inr (Or.inr ⟨rfl, hgt, rfl⟩))

theorem mem_of_drop (h : buf.drop s = c :: cs) : c ∈ buf :=
  List.mem_of_mem_drop (h ▸ List.mem_cons_self : c ∈ buf.drop s)

theorem ne_zero_of_drop (hz : 0 ∉ buf) (h : buf.drop s = c :: cs) : c ≠ 0 :=
  fun hc => hz (hc ▸ mem_of_drop h)

theorem word_not_symbol (h : isWordChar c) : symbols.contains c = false := by
  rw [isWordChar, Bool.and_eq_true, Bool.not_eq_true', Bool.not_eq_true'] at h
  exact h.2

theorem isWord_of_drop (h : buf.drop s = c :: cs) (hc : isWordChar c) :
    IsWord buf s (advance buf isWordChar (buf.length - s) s) (c :: cs.takeWhile isWordChar) := by
  have hfuel : buf.length ≤ s + (buf.length - s) := by omega
  have htake : (buf.drop s).takeWhile isWordChar = c :: cs.takeWhile isWordChar := by
    rw [h, List.takeWhile_cons_of_pos hc]
  refine ⟨?_, ?_, advance_le buf isWordChar hfuel (by have := le_of_drop h; omega), ?_, ?_⟩
  · rw [drop_advance buf isWordChar hfuel, ← htake, List.takeWhile_append_dropWhile]
  · rw [advance_eq buf isWordChar hfuel, htake]
  · intro d hd
    rw [← htake] at hd
    exact List.mem_takeWhile_imp hd
  · intro d hd
    have hdrop := drop_advance buf isWordChar hfuel
    have hhead := List.head?_dropWhile_not isWordChar (buf.drop s)
    rw [← hdrop, List.head?_drop, hd] at hhead
    simpa using hhead

theorem scanToken_spec (hz : 0 ∉ buf) (hdrop : buf.drop s = c :: cs) (hspace : isSpace c = false)
    (h : tokenize (buf.drop s) = t :: ts) :
    (scanToken buf s).1 = t.code ∧ At buf (scanToken buf s).2 ts ∧
      ∀ w, t = .word w → IsWord buf s (scanToken buf s).2 w := by
  have hnext := drop_succ_of_drop hdrop
  have hle := le_of_drop hdrop
  rw [hdrop] at h
  simp only [scanToken, charAt_of_drop hdrop]
  rw [if_neg (ne_zero_of_drop hz hdrop)]
  rcases tokenize_cases cs hspace with ⟨t', hsym, htoken⟩ | ⟨hsym, hgt, hhead, htoken⟩ |
    ⟨hsym, hgt, hhead, htoken⟩ | ⟨hsym, hgt, htoken⟩
  · obtain ⟨rfl, rfl⟩ := List.cons.inj (htoken.symm.trans h)
    obtain ⟨hc, -, hcode, hword⟩ := symbol?_spec hsym
    rw [if_pos hc]
    exact ⟨hcode.symm, ⟨hle, by rw [hnext]⟩, fun w hw => absurd hw (hword w)⟩
  · obtain ⟨rfl, rfl⟩ := List.cons.inj (htoken.symm.trans h)
    obtain ⟨ds, hds⟩ := List.head?_eq_some_iff.mp hhead
    have hsecond : buf.drop (s + 1) = ch '>' :: ds := hnext.trans hds
    rw [if_neg (symbol?_none hsym), if_pos hgt, if_pos (charAt_of_drop hsecond)]
    refine ⟨rfl, ⟨le_of_drop hsecond, ?_⟩, by simp⟩
    rw [drop_succ_of_drop hsecond, hds]
    rfl
  · obtain ⟨rfl, rfl⟩ := List.cons.inj (htoken.symm.trans h)
    have hother : charAt buf (s + 1) ≠ ch '>' := by
      rw [charAt, List.getD_eq_getElem?_getD, ← List.head?_drop, hnext]
      cases hcs : cs.head? with
      | none => decide
      | some d =>
        rw [hcs] at hhead
        exact fun hd => hhead (congrArg some hd)
    rw [if_neg (symbol?_none hsym), if_pos hgt, if_neg hother]
    exact ⟨hgt, ⟨hle, by rw [hnext]⟩, by simp⟩
  · obtain ⟨rfl, rfl⟩ := List.cons.inj (htoken.symm.trans h)
    have hchar := isWordChar_of hspace hsym hgt
    have hword := isWord_of_drop hdrop hchar
    rw [if_neg (symbol?_none hsym), if_neg hgt]
    refine ⟨rfl, ⟨hword.le, ?_⟩, fun w hw => ?_⟩
    · rw [drop_advance buf isWordChar (by omega), hdrop, List.dropWhile_cons_of_pos hchar]
    · cases hw
      exact hword

theorem gettoken_run (buf : List Byte) (s : ℕ) :
    (gettoken buf).run s =
      .ok ⟨(scanToken buf (skipSpace buf s)).1, skipSpace buf s,
          (scanToken buf (skipSpace buf s)).2⟩
        (skipSpace buf (scanToken buf (skipSpace buf s)).2) := rfl

theorem exists_drop_of_cons (h : At buf s (t :: ts)) : ∃ c cs, buf.drop s = c :: cs := by
  cases hdrop : buf.drop s with
  | nil =>
    have hnil := h.2
    rw [hdrop, tokenize] at hnil
    cases hnil
  | cons c cs => exact ⟨c, cs, rfl⟩

theorem gettoken_spec (hz : 0 ∉ buf) (h : At buf s (t :: ts)) :
    ∃ r s', (gettoken buf).run s = .ok r s' ∧ r.ret = t.code ∧ At buf s' ts ∧
      ∀ w, t = .word w → IsWord buf r.q r.eq w := by
  obtain ⟨c, cs, hdrop⟩ := exists_drop_of_cons h.skip
  obtain ⟨hret, hat, hword⟩ := scanToken_spec hz hdrop (notSpace_of_skip hdrop) h.skip.2
  exact ⟨_, _, gettoken_run buf s, hret, hat.skip, hword⟩

theorem drop_skip_nil (h : At buf s []) : buf.drop (skipSpace buf s) = [] := by
  cases hdrop : buf.drop (skipSpace buf s) with
  | nil => rfl
  | cons c cs =>
    have hnil := h.skip.2
    rw [hdrop] at hnil
    rcases tokenize_cases cs (notSpace_of_skip hdrop) with ⟨_, _, htoken⟩ | ⟨_, _, _, htoken⟩ |
      ⟨_, _, _, htoken⟩ | ⟨_, _, htoken⟩
    all_goals
      rw [htoken] at hnil
      cases hnil

theorem gettoken_end (h : At buf s []) :
    ∃ r s', (gettoken buf).run s = .ok r s' ∧ r.ret = 0 ∧ At buf s' [] := by
  have hdrop := drop_skip_nil h
  have hscan : scanToken buf (skipSpace buf s) = (0, skipSpace buf s) := by
    rw [scanToken, charAt_of_drop_nil hdrop]
    rfl
  refine ⟨_, _, gettoken_run buf s, ?_, ?_⟩
  · rw [hscan]
  · rw [hscan]
    exact h.skip.skip

theorem peek_spec (toks : List Byte) (hz : 0 ∉ buf) (htoks : toks ⊆ symbols)
    (h : At buf s ts) :
    ∃ s', (peek buf toks).run s = .ok (sees toks ts) s' ∧ At buf s' ts := by
  refine ⟨skipSpace buf s, ?_, h.skip⟩
  have hnot (c : Byte) (hc : symbols.contains c = false) : toks.contains c = false := by
    rw [List.contains_eq_mem, decide_eq_false_iff_not] at hc ⊢
    exact fun hmem => hc (htoks hmem)
  have hvalue : decide (charAt buf (skipSpace buf s) ≠ 0 ∧
      toks.contains (charAt buf (skipSpace buf s))) = sees toks ts := by
    have hts := h.skip.2
    cases hdrop : buf.drop (skipSpace buf s) with
    | nil =>
      rw [hdrop, tokenize] at hts
      subst hts
      rw [charAt_of_drop_nil hdrop]
      rfl
    | cons c cs =>
      rw [hdrop] at hts
      have hc := ne_zero_of_drop hz hdrop
      have hspace := notSpace_of_skip hdrop
      rw [charAt_of_drop hdrop]
      simp only [ne_eq, hc, not_false_eq_true, true_and, Bool.decide_eq_true]
      rcases tokenize_cases cs hspace with ⟨t', hsym, htoken⟩ | ⟨_, hgt, _, htoken⟩ |
        ⟨_, hgt, _, htoken⟩ | ⟨hsym, hgt, htoken⟩
      · rw [← hts, htoken, sees, (symbol?_spec hsym).2.1]
      · rw [← hts, htoken, sees, hgt]
        rfl
      · rw [← hts, htoken, sees, hgt]
        rfl
      · rw [← hts, htoken, sees, hnot c (word_not_symbol (isWordChar_of hspace hsym hgt)),
          Token.look, hnot 0 (by decide)]
  exact congrArg (fun b => EStateM.Result.ok b (skipSpace buf s)) hvalue

end Tokens

def IsPanic (e : Failure) : Prop := ∃ msg, e = .panic msg

structure IsRedir (buf : List Byte) (w : Wrap) (r : Redir) : Prop where
  file : IsWord buf w.file w.efile r.file
  mode : w.mode = r.op.mode
  fd : w.fd = r.op.fd

structure Filled (a : Args) (spans : List (ℕ × ℕ)) : Prop where
  argv : a.argv = spans.map (fun x => some x.1) ++ List.replicate (MAXARGS - spans.length) none
  eargv : a.eargv = spans.map (fun x => some x.2) ++ List.replicate (MAXARGS - spans.length) none

inductive Denotes (buf : List Byte) : Cmd → Tree → Prop
  | exec {a ws} (spans : List (ℕ × ℕ)) (h : Filled a spans) (hlen : spans.length ≤ MAXARGS - 1)
      (hwords : List.Forall₂ (fun x w => IsWord buf x.1 x.2 w) spans ws) :
      Denotes buf (.exec a) (.exec ws)
  | redir {c t w} (r : Redir) (h : Denotes buf c t) (hw : IsRedir buf w r) :
      Denotes buf (.redir c w) (.redir t r.file r.op.mode r.op.fd)
  | pipe {c c' t t'} (h : Denotes buf c t) (h' : Denotes buf c' t') :
      Denotes buf (.pipe c c') (.pipe t t')
  | list {c c' t t'} (h : Denotes buf c t) (h' : Denotes buf c' t') :
      Denotes buf (.list c c') (.list t t')
  | back {c t} (h : Denotes buf c t) : Denotes buf (.back c) (.back t)

theorem Denotes.redirected {buf : List Byte} {c : Cmd} {t : Tree} {ws : List Wrap}
    {rs : List Redir} (h : Denotes buf c t) (hrs : List.Forall₂ (IsRedir buf) ws rs) :
    Denotes buf (c.redirected ws) (t.redirected rs) := by
  induction hrs generalizing c t with
  | nil => exact h
  | cons hw _ ih => exact ih (h.redir _ hw)

theorem Filled.empty : Filled Args.empty [] := ⟨rfl, rfl⟩

theorem set_filled {β : Type*} (f : β → Option ℕ) (l : List β) (x : Option ℕ)
    (h : l.length < MAXARGS) :
    (l.map f ++ List.replicate (MAXARGS - l.length) none).set l.length x =
      l.map f ++ x :: List.replicate (MAXARGS - (l.length + 1)) none := by
  have hsucc : MAXARGS - l.length = MAXARGS - (l.length + 1) + 1 := by omega
  rw [hsucc, List.replicate_succ, List.set_append_right _ _ (by simp), List.length_map,
    Nat.sub_self, List.set_cons_zero]

section Simulation

variable {buf : List Byte} {s : ℕ} {ts : List Token}

theorem Filled.length (h : Filled a spans) (hlen : spans.length < MAXARGS) :
    a.argv.length = MAXARGS ∧ a.eargv.length = MAXARGS := by
  rw [h.argv, h.eargv]
  simp only [List.length_append, List.length_map, List.length_replicate]
  omega

theorem Filled.put (h : Filled a spans) (hlen : spans.length < MAXARGS) (q e s : ℕ) :
    ∃ a', (a.put spans.length (some q) (some e)).run s = .ok a' s ∧
      Filled a' (spans ++ [(q, e)]) := by
  obtain ⟨hargv, heargv⟩ := h.length hlen
  rw [Args.put, if_pos ⟨by omega, by omega⟩]
  refine ⟨_, rfl, ?_, ?_⟩
  · rw [h.argv, set_filled _ _ _ hlen]
    simp
  · rw [h.eargv, set_filled _ _ _ hlen]
    simp

theorem Filled.putNull (h : Filled a spans) (hlen : spans.length < MAXARGS) (s : ℕ) :
    (a.put spans.length none none).run s = .ok a s := by
  obtain ⟨hargv, heargv⟩ := h.length hlen
  have hsucc : MAXARGS - spans.length = MAXARGS - (spans.length + 1) + 1 := by omega
  have hsame (f : ℕ × ℕ → Option ℕ) :
      (spans.map f ++ List.replicate (MAXARGS - spans.length) none).set spans.length none =
        spans.map f ++ List.replicate (MAXARGS - spans.length) none := by
    rw [set_filled f spans none hlen, hsucc, List.replicate_succ]
  rw [Args.put, if_pos ⟨by omega, by omega⟩]
  have hargs : (⟨a.argv.set spans.length none, a.eargv.set spans.length none⟩ : Args) = a := by
    obtain ⟨argv, eargv⟩ := a
    have h₁ : argv = _ := h.argv
    have h₂ : eargv = _ := h.eargv
    rw [h₁, h₂, hsame, hsame]
  rw [hargs]
  rfl

/-- The parser returns what the descent reads, and panics where the descent fails. -/
def Simulates {α β : Type} (buf : List Byte) (R : α → β → Prop) (x : ParseM α) (s : ℕ)
    (o : Option (β × List Token)) : Prop :=
  Ends x s (fun a s' => ∃ b ts', o = some (b, ts') ∧ At buf s' ts' ∧ R a b)
    (fun e _ => IsPanic e ∧ o = none)

section Rules

variable {α β α' β' : Type} {R : α → β → Prop} {R' : α' → β' → Prop}

theorem simulates_pure {a : α} {b : β} (h : At buf s ts) (hR : R a b) :
    Simulates buf R (pure a) s (some (b, ts)) := ⟨b, ts, rfl, h, hR⟩

theorem simulates_panic (msg : String) : Simulates buf R (throw (.panic msg)) s none :=
  ⟨⟨msg, rfl⟩, rfl⟩

variable {x : ParseM α} {o : Option (β × List Token)}

theorem simulates_bind_of_eq {f : α → ParseM α'} {a : α} {s' : ℕ} {o : Option (β' × List Token)}
    (hx : x.run s = .ok a s') (hf : Simulates buf R' (f a) s' o) :
    Simulates buf R' (x >>= f) s o := Ends.bind_of_eq hx hf

theorem Simulates.bind {f : α → ParseM α'} {g : β × List Token → Option (β' × List Token)}
    (hx : Simulates buf R x s o) (hf : ∀ a b s' ts', o = some (b, ts') → At buf s' ts' → R a b →
      Simulates buf R' (f a) s' (g (b, ts'))) : Simulates buf R' (x >>= f) s (o.bind g) := by
  refine Ends.bind_imp hx (fun e s' he => ⟨he.1, by rw [he.2, Option.bind_none]⟩)
    fun a s' ha => ?_
  obtain ⟨b, ts', ho, hat, hR⟩ := ha
  rw [ho, Option.bind_some]
  exact hf a b s' ts' ho hat hR

theorem Simulates.map {S : α → β' → Prop} {g : β → β'} (hx : Simulates buf R x s o)
    (hf : ∀ a b, R a b → S a (g b)) : Simulates buf S x s (o.map fun r => (g r.1, r.2)) := by
  refine Ends.mono hx (fun a s' ha => ?_) fun e _ he => ⟨he.1, by rw [he.2, Option.map_none]⟩
  obtain ⟨b, ts', ho, hat, hR⟩ := ha
  exact ⟨g b, ts', by rw [ho, Option.map_some], hat, hf a b hR⟩

theorem Simulates.bind_pure {f : α → α'} {g : β → β'} (hx : Simulates buf R x s o)
    (hf : ∀ a b, R a b → R' (f a) (g b)) :
    Simulates buf R' (x >>= fun a => pure (f a)) s (o.map fun r => (g r.1, r.2)) := by
  rw [Option.map_eq_bind]
  exact hx.bind fun a b s' ts' _ hat hR => simulates_pure hat (hf a b hR)

end Rules

theorem At.length_le (h : At buf s ts) : ts.length ≤ buf.length := by
  have hlen := tokenize_length_le (buf.drop s)
  rw [h.2, List.length_drop] at hlen
  omega

theorem sees_redir (ts : List Token) :
    sees [ch '<', ch '>'] ts = (ts.head?.bind Token.redirOp?).isSome := by
  cases ts with
  | nil => rfl
  | cons t ts => cases t <;> rfl

theorem wrapOf_code (op : RedirOp) (f : Scanned) :
    wrapOf op.token.code f = [⟨f.q, f.eq, op.mode, op.fd⟩] := by
  cases op <;> rfl

theorem code_eq_word : t.code = ch 'a' ↔ ∃ w, t = .word w := by
  cases t with
  | word w => exact ⟨fun _ => ⟨w, rfl⟩, fun _ => rfl⟩
  | _ =>
    refine ⟨fun h => absurd h (by decide), ?_⟩
    rintro ⟨w, hw⟩
    cases hw

def Wraps (buf : List Byte) (before wraps : List Wrap) (rs : List Redir) : Prop :=
  ∃ ws, wraps = before ++ ws ∧ List.Forall₂ (IsRedir buf) ws rs

theorem parseredirs_simulates (hz : 0 ∉ buf) (hk : ts.length < k) (h : At buf s ts)
    (wraps : List Wrap) :
    Simulates buf (Wraps buf wraps) (parseredirs buf k wraps) s (redirs ts) := by
  induction k generalizing s ts wraps with
  | zero => omega
  | succ k ih =>
    rw [parseredirs]
    obtain ⟨s₁, hpeek, h₁⟩ := peek_spec [ch '<', ch '>'] hz (by simp [symbols]) h
    refine simulates_bind_of_eq hpeek ?_
    rw [sees_redir]
    have hnone : Wraps buf wraps wraps [] := ⟨[], (List.append_nil _).symm, .nil⟩
    cases ts with
    | nil => exact simulates_pure h₁ hnone
    | cons t ts =>
      rw [List.head?_cons, Option.bind_some]
      cases hop : t.redirOp? with
      | none =>
        rw [redirs_of_none hop]
        exact simulates_pure h₁ hnone
      | some op =>
        have ht := token_of_redirOp? hop
        subst ht
        obtain ⟨tok, s₂, hget, htok, h₂, -⟩ := gettoken_spec hz h₁
        refine simulates_bind_of_eq hget ?_
        by_cases hword : ∃ w, ts.head? = some (.word w)
        · obtain ⟨w, hw⟩ := hword
          obtain ⟨ts, rfl⟩ := List.head?_eq_some_iff.mp hw
          obtain ⟨f, s₃, hget', hf, h₃, hfile⟩ := gettoken_spec hz h₂
          refine simulates_bind_of_eq hget' ?_
          rw [if_neg (not_not.mpr (by exact hf)), htok, wrapOf_code, redirs_word]
          have hrest := ih (by simp only [List.length_cons] at hk; omega) h₃
            (wraps ++ [⟨f.q, f.eq, op.mode, op.fd⟩])
          have hfile : IsRedir buf ⟨f.q, f.eq, op.mode, op.fd⟩ ⟨op, w⟩ :=
            ⟨hfile w rfl, rfl, rfl⟩
          refine hrest.map fun r rs hwraps => ?_
          obtain ⟨ws, rfl, hall⟩ := hwraps
          exact ⟨_ :: ws, List.append_assoc _ _ _, .cons hfile hall⟩
        · rw [redirs_missing fun w hw => hword ⟨w, hw⟩]
          cases ts with
          | nil =>
            obtain ⟨f, s₃, hget', hf, -⟩ := gettoken_end h₂
            refine simulates_bind_of_eq hget' ?_
            rw [if_pos (by rw [hf]; decide)]
            exact simulates_panic _
          | cons u ts =>
            obtain ⟨f, s₃, hget', hf, -, -⟩ := gettoken_spec hz h₂
            refine simulates_bind_of_eq hget' ?_
            have hcode : f.ret ≠ ch 'a' := by
              rw [hf]
              intro hcode
              obtain ⟨w, rfl⟩ := code_eq_word.mp hcode
              exact hword ⟨w, rfl⟩
            rw [if_pos hcode]
            exact simulates_panic _

theorem sees_ends (ts : List Token) :
    sees [ch '|', ch ')', ch '&', ch ';'] ts = ts.head?.any Token.ends := by
  cases ts with
  | nil => rfl
  | cons t ts => cases t <;> rfl

def Words (buf : List Byte) (spans : List (ℕ × ℕ)) (wraps : List Wrap)
    (r : Args × ℕ × List Wrap) (items : List Item) : Prop :=
  ∃ spans', Filled r.1 (spans ++ spans') ∧ r.2.1 = (spans ++ spans').length ∧
    (spans ++ spans').length ≤ MAXARGS - 1 ∧
    List.Forall₂ (fun x w => IsWord buf x.1 x.2 w) spans' (items.map Item.text) ∧
    Wraps buf wraps r.2.2 (items.flatMap Item.redirs)

theorem Words.nil (h : Filled a spans) (hlen : spans.length ≤ MAXARGS - 1) (wraps : List Wrap) :
    Words buf spans wraps (a, spans.length, wraps) [] := by
  refine ⟨[], ?_, ?_, ?_, .nil, [], (List.append_nil _).symm, .nil⟩
  all_goals rw [List.append_nil]
  · exact h
  · exact hlen

theorem Words.cons {wraps wraps' : List Wrap} {r : Args × ℕ × List Wrap} {q e : ℕ} {w : List Byte}
    {rs : List Redir} {items : List Item} (hw : IsWord buf q e w) (hrs : Wraps buf wraps wraps' rs)
    (h : Words buf (spans ++ [(q, e)]) wraps' r items) :
    Words buf spans wraps r (⟨w, rs⟩ :: items) := by
  obtain ⟨spans', hfilled, hargc, hlen, hwords, ws', hr, hws'⟩ := h
  obtain ⟨ws, rfl, hws⟩ := hrs
  rw [List.append_assoc] at hfilled hargc hlen
  refine ⟨(q, e) :: spans', hfilled, hargc, hlen, .cons hw hwords, ws ++ ws', ?_, ?_⟩
  · rw [hr, List.append_assoc]
  · exact List.rel_append hws hws'

theorem lt_maxargs {n : ℕ} (h : n ≤ MAXARGS - 1) : n < MAXARGS := by
  simp only [MAXARGS] at h ⊢
  omega

theorem parseargs_simulates (hz : 0 ∉ buf) {j : ℕ} (hk : ts.length < k) (hj : ts.length < j)
    (h : At buf s ts) (hfilled : Filled a spans) (hlen : spans.length ≤ MAXARGS - 1)
    (wraps : List Wrap) :
    Simulates buf (Words buf spans wraps) (parseargs buf k a spans.length wraps) s
      (words j spans.length ts) := by
  induction k generalizing j s ts a spans wraps with
  | zero => omega
  | succ k ih =>
    obtain ⟨j, rfl⟩ := Nat.exists_eq_add_one_of_ne_zero (by omega : j ≠ 0)
    rw [parseargs]
    obtain ⟨s₁, hpeek, h₁⟩ :=
      peek_spec [ch '|', ch ')', ch '&', ch ';'] hz (by simp [symbols]) h
    refine simulates_bind_of_eq hpeek ?_
    rw [sees_ends]
    cases ts with
    | nil =>
      obtain ⟨tok, s₂, hget, htok, h₂⟩ := gettoken_end h₁
      refine simulates_bind_of_eq hget ?_
      rw [if_pos htok]
      exact simulates_pure h₂ (Words.nil hfilled hlen wraps)
    | cons t ts =>
      rw [List.head?_cons, Option.any_some]
      by_cases hword : ∃ w, t = .word w
      · obtain ⟨w, rfl⟩ := hword
        obtain ⟨tok, s₂, hget, htok, h₂, hspan⟩ := gettoken_spec hz h₁
        obtain ⟨a', hput, hfilled'⟩ := hfilled.put (lt_maxargs hlen) tok.q tok.eq s₂
        have hret : tok.ret = ch 'a' := htok
        refine simulates_bind_of_eq hget ?_
        rw [if_neg (by rw [hret]; decide), if_neg (not_not.mpr hret)]
        refine simulates_bind_of_eq hput ?_
        rw [words]
        split_ifs with hmany
        · exact simulates_panic _
        · simp only [List.length_cons] at hk hj
          refine Simulates.bind (parseredirs_simulates hz (by have := h₂.length_le; omega) h₂ wraps)
            fun wraps' rs s₃ ts₃ hrs h₃ hwraps => ?_
          have hts := congrArg List.length (redirs_sound hrs).1
          rw [List.length_append] at hts
          have hlen' : (spans ++ [(tok.q, tok.eq)]).length = spans.length + 1 := by simp
          have hrest := ih (by omega) (j := j) (by omega) h₃ hfilled' (by omega) wraps'
          rw [hlen'] at hrest
          exact hrest.map fun r items hitems => .cons (hspan w rfl) hwraps hitems
      · have hwords : words (j + 1) spans.length (t :: ts) =
            if t.ends then some ([], t :: ts) else none := by
          rw [words]
          exact fun w hw => hword ⟨w, hw⟩
        rw [hwords]
        cases hends : t.ends with
        | true => exact simulates_pure h₁ (Words.nil hfilled hlen wraps)
        | false =>
          obtain ⟨tok, s₂, hget, htok, -, -⟩ := gettoken_spec hz h₁
          refine simulates_bind_of_eq hget ?_
          have hret : tok.ret ≠ 0 := by
            rw [htok]
            cases t with
            | word w => exact absurd ⟨w, rfl⟩ hword
            | _ => decide
          have hcode : tok.ret ≠ ch 'a' := by
            rw [htok]
            exact fun hcode => hword (code_eq_word.mp hcode)
          rw [if_neg hret, if_pos hcode]
          exact simulates_panic _

theorem parsesimple_simulates (hz : 0 ∉ buf) (h : At buf s ts) :
    Simulates buf (Denotes buf) (parsesimple buf) s (simple ts) := by
  rw [parsesimple, simple]
  refine Simulates.bind (parseredirs_simulates hz (by have := h.length_le; omega) h [])
    fun wraps rs s₁ ts₁ _ h₁ hwraps => ?_
  rw [Option.map_eq_bind]
  refine Simulates.bind (parseargs_simulates hz (by have := h₁.length_le; omega)
    (Nat.lt_succ_self _) h₁ .empty (Nat.zero_le _) wraps) fun r items s₂ ts₂ _ h₂ hwords => ?_
  obtain ⟨a, argc, wraps'⟩ := r
  obtain ⟨spans, hfilled, rfl, hlen, hspans, ws', hws', hall'⟩ := hwords
  obtain ⟨ws, hws, hall⟩ := hwraps
  refine simulates_bind_of_eq (hfilled.putNull (lt_maxargs hlen) s₂) ?_
  refine simulates_pure h₂ ?_
  have hwraps' : wraps' = ws ++ ws' := by
    rw [show wraps' = wraps ++ ws' from hws', hws, List.nil_append]
  rw [hwraps']
  exact (Denotes.exec spans hfilled hlen hspans).redirected (List.rel_append hall hall')

theorem sees_single (t : Token) (ht : t ∈ [Token.bar, .lpar, .rpar, .semi, .amp])
    (ts : List Token) : sees [t.code] ts = decide (ts.head? = some t) := by
  simp only [List.mem_cons, List.not_mem_nil, or_false] at ht
  cases ts with
  | nil => rfl
  | cons u ts => rcases ht with rfl | rfl | rfl | rfl | rfl <;> cases u <;> rfl

theorem parseback_returns (hz : 0 ∉ buf) (hk : ts.length < k) (h : At buf s ts) (cmd : Cmd) :
    Returns (parseback buf k cmd) s fun c s' =>
      At buf s' (amps ts).2 ∧ c = Cmd.back^[(amps ts).1] cmd := by
  induction k generalizing s ts cmd with
  | zero => omega
  | succ k ih =>
    rw [parseback]
    obtain ⟨s₁, hpeek, h₁⟩ := peek_spec [ch '&'] hz (by simp [symbols]) h
    refine Returns.bind_of_eq hpeek ?_
    rw [show sees [ch '&'] ts = _ from sees_single .amp (by simp) ts]
    by_cases hamp : ts.head? = some .amp
    · rw [decide_eq_true hamp]
      obtain ⟨ts, rfl⟩ := List.head?_eq_some_iff.mp hamp
      obtain ⟨tok, s₂, hget, -, h₂, -⟩ := gettoken_spec hz h₁
      refine Returns.bind_of_eq hget ?_
      rw [amps, iterate_succ_apply]
      exact ih (by simp only [List.length_cons] at hk; omega) h₂ (.back cmd)
    · have hamps : amps ts = (0, ts) := by
        rw [amps]
        rintro rest rfl
        exact hamp rfl
      rw [decide_eq_false hamp, hamps]
      exact returns_pure ⟨h₁, rfl⟩

theorem Denotes.backs {c : Cmd} {t : Tree} (h : Denotes buf c t) (n : ℕ) :
    Denotes buf (Cmd.back^[n] c) (Tree.back^[n] t) := by
  induction n with
  | zero => exact h
  | succ n ih =>
    rw [iterate_succ_apply', iterate_succ_apply']
    exact ih.back

theorem parseblock_simulates (hz : 0 ∉ buf) (h : At buf s (.lpar :: ts)) {line : ParseM Cmd}
    {o : Option (Tree × List Token)}
    (hline : ∀ s', At buf s' ts → Simulates buf (Denotes buf) line s' o) :
    Simulates buf (Denotes buf) (parseblock buf line) s (o.bind fun r =>
      match r.2 with
      | .rpar :: ts => (redirs ts).map fun r' => (r.1.redirected r'.1, r'.2)
      | _ => none) := by
  rw [parseblock]
  obtain ⟨s₁, hpeek, h₁⟩ := peek_spec [ch '('] hz (by simp [symbols]) h
  refine simulates_bind_of_eq hpeek ?_
  obtain ⟨tok, s₂, hget, -, h₂, -⟩ := gettoken_spec hz h₁
  refine simulates_bind_of_eq hget ?_
  refine (hline s₂ h₂).bind fun cmd t s₃ ts₃ _ h₃ hden => ?_
  obtain ⟨s₄, hpeek', h₄⟩ := peek_spec [ch ')'] hz (by simp [symbols]) h₃
  refine simulates_bind_of_eq hpeek' ?_
  rw [show sees [ch ')'] _ = _ from sees_single .rpar (by simp) _]
  dsimp only
  by_cases hpar : ts₃.head? = some .rpar
  · obtain ⟨ts₅, rfl⟩ := List.head?_eq_some_iff.mp hpar
    obtain ⟨tok', s₅, hget', -, h₅, -⟩ := gettoken_spec hz h₄
    refine simulates_bind_of_eq hget' ?_
    refine Simulates.bind_pure
      (parseredirs_simulates hz (Nat.lt_succ_of_le h₅.length_le) h₅ []) fun wraps rs hwraps => ?_
    obtain ⟨ws, rfl, hall⟩ := hwraps
    exact hden.redirected hall
  · rw [decide_eq_false hpar, if_neg Bool.false_ne_true]
    split
    · exact absurd rfl hpar
    · exact simulates_panic _

def parseOf (buf : List Byte) : Nonterminal → ℕ → ParseM Cmd
  | .line => parseline buf
  | .pipe => parsepipe buf
  | .exec => parseexec buf

theorem descend_length {a : Nonterminal} {t : Tree} {ts' : List Token}
    (h : descend k a ts = some (t, ts')) : ts'.length ≤ ts.length := by
  obtain ⟨us, rfl, -⟩ := descend_sound h
  rw [List.length_append]
  omega

theorem amps_length (ts : List Token) : (amps ts).2.length ≤ ts.length := by
  have hlen := congrArg List.length (amps_sound ts).1
  rw [List.length_append] at hlen
  omega

theorem parse_simulates (hz : 0 ∉ buf) {a : Nonterminal} (hk : enough ts.length a ≤ k)
    (h : At buf s ts) : Simulates buf (Denotes buf) (parseOf buf a k) s (descend k a ts) := by
  induction k generalizing a s ts with
  | zero => cases a <;> simp [enough] at hk
  | succ k ih =>
    cases a with
    | line =>
      simp only [enough] at hk
      rw [parseOf, parseline, descend]
      refine Simulates.bind (ih (a := .pipe) (by simp only [enough]; omega) h)
        fun cmd t s₁ ts₁ hpipe h₁ hden => ?_
      have hlen := descend_length hpipe
      have hlen' := amps_length ts₁
      obtain ⟨c, s₂, hback, h₂, rfl⟩ :=
        parseback_returns hz (Nat.lt_succ_of_le h₁.length_le) h₁ cmd
      refine simulates_bind_of_eq hback ?_
      obtain ⟨s₃, hpeek, h₃⟩ := peek_spec [ch ';'] hz (by simp [symbols]) h₂
      refine simulates_bind_of_eq hpeek ?_
      rw [show sees [ch ';'] _ = _ from sees_single .semi (by simp) _]
      dsimp only
      generalize amps ts₁ = r at h₂ h₃ hlen' ⊢
      obtain ⟨n, ts₂⟩ := r
      by_cases hsemi : ts₂.head? = some .semi
      · obtain ⟨ts₄, rfl⟩ := List.head?_eq_some_iff.mp hsemi
        obtain ⟨tok, s₄, hget, -, h₄, -⟩ := gettoken_spec hz h₃
        refine simulates_bind_of_eq hget ?_
        simp only [List.length_cons] at hlen'
        exact (ih (a := .line) (by simp only [enough]; omega) h₄).bind_pure
          fun _ _ hden' => (hden.backs n).list hden'
      · rw [decide_eq_false hsemi, if_neg Bool.false_ne_true]
        split
        · rename_i heq
          cases heq
          exact absurd rfl hsemi
        · rename_i heq
          cases heq
          exact simulates_pure h₃ (hden.backs n)
    | pipe =>
      simp only [enough] at hk
      rw [parseOf, parsepipe, descend]
      refine Simulates.bind (ih (a := .exec) (by simp only [enough]; omega) h)
        fun cmd t s₁ ts₁ hexec h₁ hden => ?_
      have hlen := descend_length hexec
      obtain ⟨s₂, hpeek, h₂⟩ := peek_spec [ch '|'] hz (by simp [symbols]) h₁
      refine simulates_bind_of_eq hpeek ?_
      rw [show sees [ch '|'] _ = _ from sees_single .bar (by simp) _]
      dsimp only
      by_cases hbar : ts₁.head? = some .bar
      · obtain ⟨ts₃, rfl⟩ := List.head?_eq_some_iff.mp hbar
        obtain ⟨tok, s₃, hget, -, h₃, -⟩ := gettoken_spec hz h₂
        refine simulates_bind_of_eq hget ?_
        simp only [List.length_cons] at hlen
        exact (ih (a := .pipe) (by simp only [enough]; omega) h₃).bind_pure
          fun _ _ hden' => hden.pipe hden'
      · rw [decide_eq_false hbar, if_neg Bool.false_ne_true]
        split
        · exact absurd rfl hbar
        · exact simulates_pure h₂ hden
    | exec =>
      simp only [enough] at hk
      rw [parseOf, parseexec]
      obtain ⟨s₁, hpeek, h₁⟩ := peek_spec [ch '('] hz (by simp [symbols]) h
      refine simulates_bind_of_eq hpeek ?_
      rw [show sees [ch '('] _ = _ from sees_single .lpar (by simp) _]
      by_cases hpar : ts.head? = some .lpar
      · obtain ⟨ts, rfl⟩ := List.head?_eq_some_iff.mp hpar
        rw [decide_eq_true hpar, descend]
        simp only [List.length_cons] at hk
        exact parseblock_simulates hz h₁ fun s' h' =>
          ih (a := .line) (by simp only [enough]; omega) h'
      · rw [decide_eq_false hpar, descend_simple hpar]
        exact parsesimple_simulates hz h₁

end Simulation

theorem descend_of_derives {buf : List Byte} {t : Tree} (h : Derives .line (tokenize buf) t) :
    descend (4 * buf.length + 4) .line (tokenize buf) = some (t, []) := by
  have hlen := tokenize_length_le buf
  have hcomplete : descend (4 * buf.length + 4) .line (tokenize buf ++ []) = some (t, []) :=
    descend_complete h (by simp only [enough]; omega) (by simp [Follow])
  rwa [List.append_nil] at hcomplete

theorem parse_ends {buf : List Byte} (hz : 0 ∉ buf) :
    Ends (parse buf) 0
      (fun cmd _ => ∃ t, Denotes buf cmd t ∧ Derives .line (tokenize buf) t)
      (fun e _ => IsPanic e ∧ ∀ t, ¬ Derives .line (tokenize buf) t) := by
  have hlen := tokenize_length_le buf
  have hstart : At buf 0 (tokenize buf) := ⟨Nat.zero_le _, rfl⟩
  refine Ends.bind_imp (parse_simulates (a := .line) (k := 4 * buf.length + 4) hz
    (by simp only [enough]; omega) hstart) (fun e _ he => ⟨he.1, fun t ht => ?_⟩)
    fun cmd s₁ hcmd => ?_
  · rw [descend_of_derives ht] at he
    exact absurd he.2 (by simp)
  obtain ⟨t, ts, hdescend, h₁, hden⟩ := hcmd
  refine Ends.bind_of_eq (rfl : (peek buf []).run s₁ = .ok _ (skipSpace buf s₁)) ?_
  refine ends_get_bind ?_
  by_cases hts : ts = []
  · subst hts
    have hend := List.drop_eq_nil_iff.mp (drop_skip_nil h₁)
    rw [if_neg (not_not.mpr (le_antisymm h₁.skip.1 hend))]
    obtain ⟨us, hus, hder⟩ := descend_sound hdescend
    rw [List.append_nil] at hus
    exact ends_pure ⟨t, hden, hus ▸ hder⟩
  · have hnot : skipSpace buf s₁ ≠ buf.length := by
      intro heq
      have hnil := h₁.skip.2
      rw [heq, List.drop_length, tokenize] at hnil
      exact hts hnil.symm
    rw [if_pos hnot]
    refine ends_throw ⟨⟨_, rfl⟩, fun t' ht' => ?_⟩
    rw [descend_of_derives ht'] at hdescend
    cases hdescend
    exact hts rfl

structure Kept (buf m : List Byte) : Prop where
  length : m.length = buf.length + 1
  words : ∀ (i : ℕ) (c : Byte), buf[i]? = some c → isWordChar c → m[i]? = some c

def Cmd.Cut (m : List Byte) : Cmd → Prop
  | .exec a => ∀ e, some e ∈ a.eargv → m[e]? = some 0
  | .redir cmd w => cmd.Cut m ∧ m[w.efile]? = some 0
  | .pipe left right => left.Cut m ∧ right.Cut m
  | .list left right => left.Cut m ∧ right.Cut m
  | .back cmd => cmd.Cut m

def NulsStay (m m' : List Byte) : Prop := ∀ i : ℕ, m[i]? = some 0 → m'[i]? = some 0

section Nulterminate

variable {buf m m' : List Byte}

theorem Cmd.Cut.mono {cmd : Cmd} (h : cmd.Cut m) (hstay : NulsStay m m') : cmd.Cut m' := by
  induction cmd with
  | exec a => exact fun e he => hstay e (h e he)
  | redir cmd w ih => exact ⟨ih h.1, hstay _ h.2⟩
  | pipe left right ihl ihr => exact ⟨ihl h.1, ihr h.2⟩
  | list left right ihl ihr => exact ⟨ihl h.1, ihr h.2⟩
  | back cmd ih => exact ih h

theorem kept_init (buf : List Byte) : Kept buf (buf ++ [0]) := by
  refine ⟨by simp, fun i c hi _ => ?_⟩
  obtain ⟨hlt, -⟩ := List.getElem?_eq_some_iff.mp hi
  rw [List.getElem?_append_left hlt, hi]

theorem putNul_returns {q e : ℕ} {w : List Byte} (hw : IsWord buf q e w) (h : Kept buf m) :
    Returns (putNul e) m fun _ m' => Kept buf m' ∧ NulsStay m m' ∧ m'[e]? = some 0 := by
  have hlt : e < m.length := by
    have := hw.le
    rw [h.length]
    omega
  refine returns_get_bind ?_
  rw [if_pos hlt]
  refine ⟨_, _, rfl, ⟨?_, fun i c hi hc => ?_⟩, fun i hi => ?_, List.getElem?_set_self hlt⟩
  · rw [List.length_set, h.length]
  · have hne : e ≠ i := by
      rintro rfl
      rw [hw.boundary c hi] at hc
      cases hc
    rw [List.getElem?_set_ne hne]
    exact h.words i c hi hc
  · by_cases hne : e = i
    · rw [← hne]
      exact List.getElem?_set_self hlt
    · rw [List.getElem?_set_ne hne]
      exact hi

theorem nulArgs_returns (done todo : List (ℕ × ℕ)) (ha : Filled a (done ++ todo))
    (hlen : (done ++ todo).length < MAXARGS) (hwords : ∀ x ∈ todo, ∃ w, IsWord buf x.1 x.2 w)
    (hk : todo.length < k) (h : Kept buf m) :
    Returns (nulArgs a k done.length) m fun _ m' =>
      Kept buf m' ∧ NulsStay m m' ∧ ∀ x ∈ todo, m'[x.2]? = some 0 := by
  induction todo generalizing done k m with
  | nil =>
    obtain ⟨k, rfl⟩ := Nat.exists_eq_add_one_of_ne_zero (by omega : k ≠ 0)
    rw [List.append_nil] at ha hlen
    have hsucc : MAXARGS - done.length = MAXARGS - (done.length + 1) + 1 := by omega
    have hnull : a.argv[done.length]? = some none := by
      rw [ha.argv, List.getElem?_append_right (by simp), List.length_map, Nat.sub_self, hsucc]
      rfl
    rw [nulArgs, hnull]
    exact returns_pure ⟨h, fun _ hi => hi, by simp⟩
  | cons x todo ih =>
    obtain ⟨k, rfl⟩ := Nat.exists_eq_add_one_of_ne_zero (by omega : k ≠ 0)
    have hnext (f : ℕ × ℕ → Option ℕ) (l : List (Option ℕ)) :
        ((done ++ x :: todo).map f ++ l)[done.length]? = some (f x) := by
      rw [List.map_append, List.append_assoc, List.getElem?_append_right (by simp),
        List.length_map, Nat.sub_self]
      rfl
    rw [nulArgs, ha.argv, ha.eargv, hnext, hnext]
    obtain ⟨w, hw⟩ := hwords x List.mem_cons_self
    refine (putNul_returns hw h).bind fun _ m₁ hm => ?_
    obtain ⟨hkept, hstay, hcut⟩ := hm
    have happend : done ++ x :: todo = (done ++ [x]) ++ todo := by simp
    have hrest := ih (done ++ [x]) (happend ▸ ha) (happend ▸ hlen)
      (fun y hy => hwords y (List.mem_cons_of_mem x hy))
      (by rw [List.length_cons] at hk; omega : todo.length < k) hkept
    rw [List.length_append, List.length_singleton] at hrest
    refine hrest.mono fun _ m₂ hm₂ => ?_
    obtain ⟨hkept₂, hstay₂, hcut₂⟩ := hm₂
    refine ⟨hkept₂, fun i hi => hstay₂ i (hstay i hi), fun y hy => ?_⟩
    rcases List.mem_cons.mp hy with rfl | hy
    · exact hstay₂ _ hcut
    · exact hcut₂ y hy

theorem forall₂_exists {β γ : Type*} {R : β → γ → Prop} {xs : List β} {ys : List γ}
    (h : List.Forall₂ R xs ys) : ∀ x ∈ xs, ∃ y, R x y := by
  induction h with
  | nil => simp
  | cons hxy _ ih =>
    intro x hx
    rcases List.mem_cons.mp hx with rfl | hx
    · exact ⟨_, hxy⟩
    · exact ih x hx

theorem nulterminate_returns {cmd : Cmd} {t : Tree} (hden : Denotes buf cmd t)
    (h : Kept buf m) :
    Returns (nulterminate cmd) m fun _ m' => Kept buf m' ∧ NulsStay m m' ∧ cmd.Cut m' := by
  induction hden generalizing m with
  | @exec a ws spans ha hlen hwords =>
    have hlt := lt_maxargs hlen
    refine (nulArgs_returns [] spans ha hlt (forall₂_exists hwords)
      (by omega : spans.length < MAXARGS + 1) h).mono fun _ m' hm => ⟨hm.1, hm.2.1, fun e he => ?_⟩
    rw [ha.eargv] at he
    rcases List.mem_append.mp he with he | he
    · obtain ⟨x, hx, hxe⟩ := List.mem_map.mp he
      cases hxe
      exact hm.2.2 x hx
    · exact absurd (List.eq_of_mem_replicate he) (by simp)
  | redir r _ hw ih =>
    refine (ih h).bind fun _ m₁ h₁ => ?_
    refine (putNul_returns hw.file h₁.1).mono fun _ m₂ h₂ => ?_
    exact ⟨h₂.1, fun i hi => h₂.2.1 i (h₁.2.1 i hi), h₁.2.2.mono h₂.2.1, h₂.2.2⟩
  | pipe _ _ ih ih' =>
    refine (ih h).bind fun _ m₁ h₁ => (ih' h₁.1).mono fun _ m₂ h₂ => ?_
    exact ⟨h₂.1, fun i hi => h₂.2.1 i (h₁.2.1 i hi), h₁.2.2.mono h₂.2.1, h₂.2.2⟩
  | list _ _ ih ih' =>
    refine (ih h).bind fun _ m₁ h₁ => (ih' h₁.1).mono fun _ m₂ h₂ => ?_
    exact ⟨h₂.1, fun i hi => h₂.2.1 i (h₁.2.1 i hi), h₁.2.2.mono h₂.2.1, h₂.2.2⟩
  | back _ ih => exact ih h

theorem stringAt_word {q e : ℕ} {w : List Byte} (hz : 0 ∉ buf) (hw : IsWord buf q e w)
    (h : Kept buf m) (hcut : m[e]? = some 0) : stringAt 0 m q = w := by
  have hmem : ∀ c ∈ w, c ∈ buf := by
    intro c hc
    have hdrop : c ∈ buf.drop q := by
      rw [hw.drop_eq]
      exact List.mem_append_left _ hc
    exact List.mem_of_mem_drop hdrop
  have hchars (i : ℕ) (hi : i < w.length) : m[q + i]? = w[i]? := by
    have hbuf : buf[q + i]? = some w[i] := by
      rw [← List.getElem?_drop, hw.drop_eq, List.getElem?_append_left hi,
        List.getElem?_eq_getElem hi]
    rw [h.words _ _ hbuf (hw.chars _ (List.getElem_mem hi)), List.getElem?_eq_getElem hi]
  obtain ⟨helt, he⟩ := List.getElem?_eq_some_iff.mp hcut
  have hsplit : m.drop q = w ++ 0 :: m.drop (e + 1) := by
    rw [← he, ← List.drop_eq_getElem_cons helt, hw.stop]
    refine List.ext_getElem? fun i => ?_
    by_cases hi : i < w.length
    · rw [List.getElem?_drop, hchars i hi, List.getElem?_append_left hi]
    · rw [List.getElem?_drop, List.getElem?_append_right (by omega), List.getElem?_drop]
      congr 1
      omega
  exact stringAt_eq hsplit fun hmem0 => hz (hmem 0 hmem0)

theorem takeWhile_filled (h : Filled a spans) :
    a.argv.takeWhile Option.isSome = spans.map fun x => some x.1 := by
  rw [h.argv, List.takeWhile_append_of_pos]
  · cases MAXARGS - spans.length <;> simp [List.replicate_succ]
  · intro p hp
    obtain ⟨x, -, rfl⟩ := List.mem_map.mp hp
    rfl

theorem read_eq {cmd : Cmd} {t : Tree} (hz : 0 ∉ buf) (hden : Denotes buf cmd t)
    (h : Kept buf m) (hcut : cmd.Cut m) : cmd.read m = t := by
  induction hden with
  | @exec a ws spans ha hlen hwords =>
    have htexts : (spans.map fun x => stringAt 0 m x.1) = ws := by
      have hcut' : ∀ x ∈ spans, m[x.2]? = some 0 := by
        intro x hx
        refine hcut x.2 ?_
        rw [ha.eargv]
        exact List.mem_append_left _ (List.mem_map_of_mem hx)
      clear hcut ha hlen
      induction hwords with
      | nil => rfl
      | cons hw _ ih =>
        rw [List.map_cons, stringAt_word hz hw h (hcut' _ List.mem_cons_self),
          ih fun x hx => hcut' x (List.mem_cons_of_mem _ hx)]
    rw [Cmd.read, takeWhile_filled ha, List.map_map, ← htexts]
    rfl
  | redir r _ hw ih =>
    rw [Cmd.read, ih hcut.1, stringAt_word hz hw.file h hcut.2, hw.mode, hw.fd]
  | pipe _ _ ih ih' => rw [Cmd.read, ih hcut.1, ih' hcut.2]
  | list _ _ ih ih' => rw [Cmd.read, ih hcut.1, ih' hcut.2]
  | back _ ih => rw [Cmd.read, ih hcut]

end Nulterminate

/-- A result of `parsecmd` for a line: a tree is the one that the grammar gives, and no tree
means that there is none. No index leaves its array, and there is always an answer. -/
def Answers (buf : List Byte) : Except Failure (Cmd × List Byte) → Prop
  | .ok (cmd, m) => Derives .line (tokenize buf) (cmd.read m) ∧
      ∀ t, Derives .line (tokenize buf) t → t = cmd.read m
  | .error (.panic _) => ∀ t, ¬ Derives .line (tokenize buf) t
  | .error .outOfBounds => False
  | .error .fuel => False

theorem derives_unique {buf : List Byte} {t t' : Tree} (h : Derives .line (tokenize buf) t)
    (h' : Derives .line (tokenize buf) t') : t = t' := by
  have heq := (descend_of_derives h).symm.trans (descend_of_derives h')
  simpa using heq

theorem parsecmd_answers (buf : List Byte) (hz : 0 ∉ buf) : Answers buf (parsecmd buf) := by
  have hparse := parse_ends hz
  rw [Ends] at hparse
  rw [parsecmd]
  cases hrun : (parse buf).run 0 with
  | error e s =>
    rw [hrun] at hparse
    obtain ⟨⟨msg, rfl⟩, hnone⟩ := hparse
    exact hnone
  | ok cmd s =>
    rw [hrun] at hparse
    obtain ⟨t, hden, hder⟩ := hparse
    obtain ⟨u, m, hnul, hkept, -, hcut⟩ := nulterminate_returns hden (kept_init buf)
    have hread := read_eq hz hden hkept hcut
    dsimp only
    rw [hnul]
    exact ⟨hread ▸ hder, fun t' ht' => hread ▸ derives_unique ht' hder⟩

def pipeline : List Byte := "(cat<a;b)|c&".toList.map ch

theorem parsecmd_answers_pipeline :
    (parsecmd pipeline).isOk = true ∧ Answers pipeline (parsecmd pipeline) :=
  ⟨by decide +kernel, parsecmd_answers pipeline (by decide +kernel)⟩

end Xv6Prng.Sh

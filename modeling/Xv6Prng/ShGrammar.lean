import Xv6Prng.Library.ByteWords

/-!
# The grammar of the shell

The tokens of a command line, the grammar over tokens and a recursive descent on token lists.
The grammar is

    line := pipe {'&'} [';' line]
    pipe := exec ['|' pipe]
    exec := '(' line ')' redirs | redirs {word redirs}

with at most `MAXARGS - 1` words in a simple command. The descent decides with one token of
lookahead. It reads what the grammar derives and nothing else, and a derivation has one tree.
-/

namespace Xv6Prng.Sh

open ByteWords

abbrev MAXARGS : ℕ := 10

abbrev ch (c : Char) : Byte := BitVec.ofNat 8 c.toNat

def whitespace : List Byte := [ch ' ', ch '\t', ch '\r', ch '\n', 11]

def symbols : List Byte := [ch '<', ch '|', ch '>', ch '&', ch ';', ch '(', ch ')']

def isSpace (c : Byte) : Bool := whitespace.contains c

def isWordChar (c : Byte) : Bool := !whitespace.contains c && !symbols.contains c

inductive Token
  | bar
  | lpar
  | rpar
  | semi
  | amp
  | lt
  | gt
  | gtgt
  | word (w : List Byte)
  deriving DecidableEq

def symbol? (c : Byte) : Option Token :=
  if c = ch '|' then some .bar
  else if c = ch '(' then some .lpar
  else if c = ch ')' then some .rpar
  else if c = ch ';' then some .semi
  else if c = ch '&' then some .amp
  else if c = ch '<' then some .lt
  else none

/-- The tokens of a line; a word is a longest run of other characters. -/
def tokenize : List Byte → List Token
  | [] => []
  | c :: cs =>
    if isSpace c then tokenize cs
    else
      match symbol? c with
      | some t => t :: tokenize cs
      | none =>
        if c = ch '>' then
          if cs.head? = some (ch '>') then .gtgt :: tokenize cs.tail
          else .gt :: tokenize cs
        else .word (c :: cs.takeWhile isWordChar) :: tokenize (cs.dropWhile isWordChar)
termination_by cs => cs.length
decreasing_by
  all_goals
    have hdrop := (List.dropWhile_suffix isWordChar (l := cs)).length_le
    simp only [List.length_cons, List.length_tail]
    omega

theorem tokenize_dropWhile (cs : List Byte) : tokenize (cs.dropWhile isSpace) = tokenize cs := by
  induction cs with
  | nil => rfl
  | cons c cs ih =>
    by_cases hc : isSpace c
    · rw [List.dropWhile_cons_of_pos hc, ih, tokenize, if_pos hc]
    · rw [List.dropWhile_cons_of_neg hc]

theorem tokenize_length_le (cs : List Byte) : (tokenize cs).length ≤ cs.length := by
  induction hn : cs.length using Nat.strong_induction_on generalizing cs with
  | _ n ih =>
    cases cs with
    | nil => simp [tokenize]
    | cons c cs =>
      rw [List.length_cons] at hn
      have hdrop := (List.dropWhile_suffix isWordChar (l := cs)).length_le
      have htail := List.length_tail (l := cs)
      have hsame := ih cs.length (by omega) cs rfl
      have hskip := ih cs.tail.length (by omega) cs.tail rfl
      have hword := ih _ (by omega) (cs.dropWhile isWordChar) rfl
      rw [tokenize]
      by_cases hspace : isSpace c
      · rw [if_pos hspace]
        omega
      rw [if_neg hspace]
      split
      · rw [List.length_cons]
        omega
      · split_ifs <;> rw [List.length_cons] <;> omega

inductive RedirOp
  | input
  | output
  | append
  deriving DecidableEq

namespace RedirOp

def token : RedirOp → Token
  | input => .lt
  | output => .gt
  | append => .gtgt

/-- `O_RDONLY` is 0, `O_WRONLY|O_CREATE` is 0x201. -/
def mode : RedirOp → ℕ
  | input => 0
  | output | append => 0x201

def fd : RedirOp → ℕ
  | input => 0
  | output | append => 1

end RedirOp

structure Redir where
  op : RedirOp
  file : List Byte

inductive Tree
  | exec (argv : List (List Byte))
  | redir (cmd : Tree) (file : List Byte) (mode fd : ℕ)
  | pipe (left right : Tree)
  | list (left right : Tree)
  | back (cmd : Tree)

def Tree.redirected (t : Tree) (rs : List Redir) : Tree :=
  rs.foldl (fun t r => .redir t r.file r.op.mode r.op.fd) t

def redirTokens (rs : List Redir) : List Token := rs.flatMap fun r => [r.op.token, .word r.file]

structure Item where
  text : List Byte
  redirs : List Redir

def itemTokens (items : List Item) : List Token :=
  items.flatMap fun i => .word i.text :: redirTokens i.redirs

inductive Nonterminal
  | line
  | pipe
  | exec

inductive Derives : Nonterminal → List Token → Tree → Prop
  | line {us t} (n : ℕ) (h : Derives .pipe us t) :
      Derives .line (us ++ List.replicate n .amp) (Tree.back^[n] t)
  | seq {us vs t u} (n : ℕ) (h : Derives .pipe us t) (h' : Derives .line vs u) :
      Derives .line (us ++ (List.replicate n .amp ++ .semi :: vs)) (.list (Tree.back^[n] t) u)
  | pipe {us t} (h : Derives .exec us t) : Derives .pipe us t
  | pipes {us vs t u} (h : Derives .exec us t) (h' : Derives .pipe vs u) :
      Derives .pipe (us ++ .bar :: vs) (.pipe t u)
  | block {us t} (rs : List Redir) (h : Derives .line us t) :
      Derives .exec (.lpar :: (us ++ .rpar :: redirTokens rs)) (t.redirected rs)
  | simple (rs : List Redir) (items : List Item) (h : items.length ≤ MAXARGS - 1) :
      Derives .exec (redirTokens rs ++ itemTokens items)
        ((Tree.exec (items.map Item.text)).redirected (rs ++ items.flatMap Item.redirs))

/-- The tokens that end a simple command: those of `peek(ps, es, "|)&;")`. -/
def Token.ends : Token → Bool
  | bar | rpar | amp | semi => true
  | _ => false

def Token.redirOp? : Token → Option RedirOp
  | lt => some .input
  | gt => some .output
  | gtgt => some .append
  | _ => none

def redirs : List Token → Option (List Redir × List Token)
  | [] => some ([], [])
  | t :: ts =>
    match t.redirOp?, ts with
    | none, ts => some ([], t :: ts)
    | some op, .word w :: ts => (redirs ts).map fun r => (⟨op, w⟩ :: r.1, r.2)
    | some _, _ => none

def words : ℕ → ℕ → List Token → Option (List Item × List Token)
  | 0, _, _ => none
  | _ + 1, _, [] => some ([], [])
  | k + 1, argc, .word w :: ts =>
    if argc + 1 ≥ MAXARGS then none
    else (redirs ts).bind fun r =>
      (words k (argc + 1) r.2).map fun r' => (⟨w, r.1⟩ :: r'.1, r'.2)
  | _ + 1, _, t :: ts => if t.ends then some ([], t :: ts) else none

def simple (ts : List Token) : Option (Tree × List Token) :=
  (redirs ts).bind fun r => (words (r.2.length + 1) 0 r.2).map fun r' =>
    ((Tree.exec (r'.1.map Item.text)).redirected (r.1 ++ r'.1.flatMap Item.redirs), r'.2)

def amps : List Token → ℕ × List Token
  | .amp :: ts => ((amps ts).1 + 1, (amps ts).2)
  | ts => (0, ts)

/-- `descend k a`: the descent for each nonterminal, with fuel `k`. -/
def descend : ℕ → Nonterminal → List Token → Option (Tree × List Token)
  | 0, _, _ => none
  | k + 1, .line, ts => (descend k .pipe ts).bind fun r =>
      match amps r.2 with
      | (n, .semi :: ts) =>
        (descend k .line ts).map fun r' => (.list (Tree.back^[n] r.1) r'.1, r'.2)
      | (n, ts) => some (Tree.back^[n] r.1, ts)
  | k + 1, .pipe, ts => (descend k .exec ts).bind fun r =>
      match r.2 with
      | .bar :: ts => (descend k .pipe ts).map fun r' => (.pipe r.1 r'.1, r'.2)
      | ts => some (r.1, ts)
  | k + 1, .exec, .lpar :: ts => (descend k .line ts).bind fun r =>
      match r.2 with
      | .rpar :: ts => (redirs ts).map fun r' => (r.1.redirected r'.1, r'.2)
      | _ => none
  | _ + 1, .exec, ts => simple ts

section Descent

variable {ts ts' : List Token} {k argc : ℕ}

def NoRedir (ts : List Token) : Prop := ∀ t ∈ ts.head?, t.redirOp? = none

def EndsCommand (ts : List Token) : Prop := ∀ t ∈ ts.head?, t.ends

theorem EndsCommand.noRedir (h : EndsCommand ts) : NoRedir ts := by
  intro t ht
  have hends := h t ht
  cases t <;> simp_all [Token.ends, Token.redirOp?]

variable {t : Token}

@[simp] theorem redirOp?_token (op : RedirOp) : op.token.redirOp? = some op := by
  cases op <;> rfl

theorem token_of_redirOp? {op : RedirOp} (h : t.redirOp? = some op) : t = op.token := by
  cases t <;> simp_all [Token.redirOp?] <;> subst h <;> rfl

theorem redirTokens_cons (r : Redir) (rs : List Redir) :
    redirTokens (r :: rs) = r.op.token :: .word r.file :: redirTokens rs := rfl

theorem itemTokens_cons (i : Item) (items : List Item) :
    itemTokens (i :: items) = .word i.text :: (redirTokens i.redirs ++ itemTokens items) := rfl

theorem redirs_of_none (h : t.redirOp? = none) : redirs (t :: ts) = some ([], t :: ts) := by
  rw [redirs.eq_def]
  simp only [h]

theorem redirs_word (op : RedirOp) (w : List Byte) :
    redirs (op.token :: .word w :: ts) = (redirs ts).map fun r => (⟨op, w⟩ :: r.1, r.2) := by
  rw [redirs.eq_def]
  simp only [redirOp?_token]

theorem redirs_missing {op : RedirOp} (h : ∀ w, ts.head? ≠ some (.word w)) :
    redirs (op.token :: ts) = none := by
  rw [redirs.eq_def]
  simp only [redirOp?_token]
  split
  · rename_i heq
    cases heq
  · rename_i w _ _
    exact absurd rfl (h w)
  · rfl

theorem redirs_sound {rs : List Redir} (h : redirs ts = some (rs, ts')) :
    ts = redirTokens rs ++ ts' ∧ NoRedir ts' := by
  fun_induction redirs ts generalizing rs with
  | case1 =>
    cases h
    exact ⟨rfl, by simp [NoRedir]⟩
  | case2 t ts hop =>
    cases h
    refine ⟨rfl, fun t' ht => ?_⟩
    cases ht
    exact hop
  | case3 t op w ts hop ih =>
    obtain ⟨⟨rs', rest⟩, hrec, heq⟩ := Option.map_eq_some_iff.mp h
    cases heq
    obtain ⟨hts, hno⟩ := ih hrec
    refine ⟨?_, hno⟩
    rw [redirTokens_cons, token_of_redirOp? hop, List.cons_append, List.cons_append, ← hts]
  | case4 => cases h

theorem redirs_complete (rs : List Redir) (h : NoRedir ts) :
    redirs (redirTokens rs ++ ts) = some (rs, ts) := by
  induction rs with
  | nil =>
    cases ts with
    | nil => rfl
    | cons t ts =>
      exact redirs_of_none (h t rfl)
  | cons r rs ih =>
    rw [redirTokens_cons, List.cons_append, List.cons_append, redirs_word, ih, Option.map_some]

theorem words_sound {items : List Item} (hargc : argc ≤ MAXARGS - 1)
    (h : words k argc ts = some (items, ts')) :
    ts = itemTokens items ++ ts' ∧ argc + items.length ≤ MAXARGS - 1 ∧ EndsCommand ts' := by
  induction k generalizing argc ts items with
  | zero => cases h
  | succ k ih =>
    cases ts with
    | nil =>
      cases h
      exact ⟨rfl, hargc, by simp [EndsCommand]⟩
    | cons t ts =>
      by_cases hword : ∃ w, t = .word w
      · obtain ⟨w, rfl⟩ := hword
        rw [words] at h
        split_ifs at h with hmany
        obtain ⟨⟨rs, ts₁⟩, hredirs, hrest⟩ := Option.bind_eq_some_iff.mp h
        obtain ⟨⟨items', rest⟩, hwords, heq⟩ := Option.map_eq_some_iff.mp hrest
        cases heq
        obtain ⟨hts, -⟩ := redirs_sound hredirs
        obtain ⟨hts₁, hlen, hend⟩ := ih (by omega) hwords
        dsimp only at hts₁ hlen ⊢
        refine ⟨?_, ?_, hend⟩
        · rw [itemTokens_cons, hts, hts₁, List.cons_append, List.append_assoc]
        · rw [List.length_cons]
          omega
      · rw [words] at h
        · split_ifs at h with hends
          cases h
          refine ⟨rfl, hargc, fun t' ht => ?_⟩
          cases ht
          exact hends
        · exact fun w hw => hword ⟨w, hw⟩

theorem words_complete (items : List Item) (hargc : argc + items.length ≤ MAXARGS - 1)
    (hk : items.length < k) (h : EndsCommand ts) :
    words k argc (itemTokens items ++ ts) = some (items, ts) := by
  induction items generalizing k argc with
  | nil =>
    obtain ⟨k, rfl⟩ := Nat.exists_eq_add_one_of_ne_zero (by omega : k ≠ 0)
    cases ts with
    | nil => rfl
    | cons t ts =>
      have hends := h t rfl
      change words (k + 1) argc (t :: ts) = _
      rw [words, if_pos hends]
      rintro w rfl
      cases hends
  | cons i items ih =>
    obtain ⟨k, rfl⟩ := Nat.exists_eq_add_one_of_ne_zero (by omega : k ≠ 0)
    rw [List.length_cons] at hargc hk
    have hno : NoRedir (itemTokens items ++ ts) := by
      cases items with
      | nil => exact h.noRedir
      | cons i' items =>
        intro t ht
        cases ht
        rfl
    rw [itemTokens_cons, List.cons_append, List.append_assoc, words, if_neg (by omega),
      redirs_complete _ hno, Option.bind_some, ih (by omega) (by omega), Option.map_some]

theorem simple_sound {t : Tree} (h : simple ts = some (t, ts')) :
    (∃ us, ts = us ++ ts' ∧ Derives .exec us t) ∧ EndsCommand ts' := by
  obtain ⟨⟨rs, ts₁⟩, hredirs, hrest⟩ := Option.bind_eq_some_iff.mp h
  obtain ⟨⟨items, rest⟩, hwords, heq⟩ := Option.map_eq_some_iff.mp hrest
  cases heq
  obtain ⟨hts, -⟩ := redirs_sound hredirs
  obtain ⟨hts₁, hlen, hend⟩ := words_sound (by simp) hwords
  refine ⟨⟨_, ?_, .simple rs items (by omega)⟩, hend⟩
  have hts₁ : ts₁ = _ := hts₁
  rw [hts, hts₁, List.append_assoc]

theorem itemTokens_length (items : List Item) : items.length ≤ (itemTokens items).length := by
  induction items with
  | nil => exact le_rfl
  | cons i items ih =>
    rw [itemTokens_cons, List.length_cons, List.length_cons, List.length_append]
    omega

theorem simple_complete (rs : List Redir) (items : List Item)
    (hlen : items.length ≤ MAXARGS - 1) (h : EndsCommand ts) :
    simple (redirTokens rs ++ itemTokens items ++ ts) = some
      ((Tree.exec (items.map Item.text)).redirected (rs ++ items.flatMap Item.redirs), ts) := by
  have hno : NoRedir (itemTokens items ++ ts) := by
    cases items with
    | nil => exact h.noRedir
    | cons i' items =>
      intro t ht
      cases ht
      rfl
  have hk : items.length < (itemTokens items ++ ts).length + 1 := by
    have := itemTokens_length items
    rw [List.length_append]
    omega
  rw [simple, List.append_assoc, redirs_complete rs hno, Option.bind_some,
    words_complete items (by omega) hk h, Option.map_some]

theorem amps_sound (ts : List Token) :
    ts = List.replicate (amps ts).1 .amp ++ (amps ts).2 ∧ (amps ts).2.head? ≠ some .amp := by
  fun_induction amps ts with
  | case1 ts ih =>
    refine ⟨?_, ih.2⟩
    rw [List.replicate_succ, List.cons_append, ← ih.1]
  | case2 ts hts =>
    refine ⟨rfl, fun h => ?_⟩
    obtain ⟨rest, hrest⟩ := List.head?_eq_some_iff.mp h
    exact hts rest hrest

theorem amps_complete (n : ℕ) (h : ts.head? ≠ some .amp) :
    amps (List.replicate n .amp ++ ts) = (n, ts) := by
  induction n with
  | zero =>
    rw [List.replicate_zero, List.nil_append, amps]
    rintro rest rfl
    exact h rfl
  | succ n ih => rw [List.replicate_succ, List.cons_append, amps, ih]

theorem descend_simple (h : ts.head? ≠ some .lpar) : descend (k + 1) .exec ts = simple ts := by
  rw [descend]
  rintro rest rfl
  exact h rfl

theorem descend_sound {a : Nonterminal} {t : Tree} (h : descend k a ts = some (t, ts')) :
    ∃ us, ts = us ++ ts' ∧ Derives a us t := by
  induction k generalizing a ts t ts' with
  | zero => cases h
  | succ k ih =>
    cases a with
    | line =>
      rw [descend] at h
      obtain ⟨⟨t₁, ts₁⟩, hpipe, hrest⟩ := Option.bind_eq_some_iff.mp h
      obtain ⟨us, hus, hder⟩ := ih hpipe
      have hamps := (amps_sound ts₁).1
      dsimp only at hrest
      split at hrest
      · rename_i n ts₂ heq
        obtain ⟨⟨u, rest⟩, hline, hpair⟩ := Option.map_eq_some_iff.mp hrest
        cases hpair
        obtain ⟨vs, hvs, hder'⟩ := ih hline
        rw [heq] at hamps
        refine ⟨_, ?_, .seq n hder hder'⟩
        rw [hus, hamps, hvs]
        simp only [List.append_assoc, List.cons_append]
      · rename_i n ts₂ _ heq
        cases hrest
        rw [heq] at hamps
        refine ⟨_, ?_, .line n hder⟩
        rw [hus, hamps, List.append_assoc]
    | pipe =>
      rw [descend] at h
      obtain ⟨⟨t₁, ts₁⟩, hexec, hrest⟩ := Option.bind_eq_some_iff.mp h
      obtain ⟨us, hus, hder⟩ := ih hexec
      dsimp only at hrest
      split at hrest
      · obtain ⟨⟨u, rest⟩, hpipe, hpair⟩ := Option.map_eq_some_iff.mp hrest
        cases hpair
        obtain ⟨vs, hvs, hder'⟩ := ih hpipe
        refine ⟨_, ?_, .pipes hder hder'⟩
        rw [hus, hvs, List.append_assoc, List.cons_append]
      · cases hrest
        exact ⟨us, hus, .pipe hder⟩
    | exec =>
      by_cases hpar : ts.head? = some .lpar
      · obtain ⟨ts₀, rfl⟩ := List.head?_eq_some_iff.mp hpar
        rw [descend] at h
        obtain ⟨⟨t₁, ts₁⟩, hline, hrest⟩ := Option.bind_eq_some_iff.mp h
        obtain ⟨us, hus, hder⟩ := ih hline
        dsimp only at hrest
        split at hrest
        · obtain ⟨⟨rs, rest⟩, hredirs, hpair⟩ := Option.map_eq_some_iff.mp hrest
          cases hpair
          refine ⟨_, ?_, .block rs hder⟩
          rw [hus, (redirs_sound hredirs).1]
          simp only [List.append_assoc, List.cons_append]
        · cases hrest
      · rw [descend_simple hpar] at h
        exact (simple_sound h).1

def Follow : Nonterminal → List Token → Prop
  | .line, ts => ∀ t ∈ ts.head?, t = .rpar
  | .pipe, ts => ∀ t ∈ ts.head?, t = .rpar ∨ t = .amp ∨ t = .semi
  | .exec, ts => EndsCommand ts

def enough (n : ℕ) : Nonterminal → ℕ
  | .line => 4 * n + 4
  | .pipe => 4 * n + 3
  | .exec => 4 * n + 2

theorem follow_amps (n : ℕ) (h : Follow .line ts ∨ ts.head? = some .semi) :
    Follow .pipe (List.replicate n .amp ++ ts) := by
  intro t ht
  cases n with
  | zero =>
    rw [List.replicate_zero, List.nil_append] at ht
    rcases h with h | h
    · exact Or.inl (h t ht)
    · rw [h] at ht
      cases ht
      exact Or.inr (Or.inr rfl)
  | succ n =>
    cases ht
    exact Or.inr (Or.inl rfl)

theorem head_ne_of_follow (h : Follow .line ts) (ht : t ≠ .rpar) :
    ts.head? ≠ some t := fun hhead => ht (h t hhead)

theorem redirTokens_head (rs : List Redir) (h : (redirTokens rs ++ ts).head? = some t) :
    t.redirOp?.isSome ∨ rs = [] ∧ ts.head? = some t := by
  cases rs with
  | nil => exact Or.inr ⟨rfl, h⟩
  | cons r rs =>
    cases h
    exact Or.inl (by simp)

theorem simple_head (rs : List Redir) (items : List Item) (h : EndsCommand ts) :
    (redirTokens rs ++ itemTokens items ++ ts).head? ≠ some .lpar := by
  intro hhead
  rw [List.append_assoc] at hhead
  rcases redirTokens_head rs hhead with hop | ⟨-, hhead⟩
  · cases hop
  · cases items with
    | nil => exact absurd (h _ hhead) (by simp [Token.ends])
    | cons i items => cases hhead

theorem descend_complete {a : Nonterminal} {us : List Token} {t : Tree} (h : Derives a us t)
    (hk : enough us.length a ≤ k) (hts : Follow a ts) :
    descend k a (us ++ ts) = some (t, ts) := by
  obtain ⟨k, rfl⟩ : ∃ k', k = k' + 1 :=
    Nat.exists_eq_add_one_of_ne_zero (by cases a <;> simp only [enough] at hk <;> omega)
  induction h generalizing k ts with
  | @line us t n h ih =>
    simp only [enough, List.length_append, List.length_replicate] at hk
    obtain ⟨k, rfl⟩ : ∃ k', k = k' + 1 := Nat.exists_eq_add_one_of_ne_zero (by omega)
    rw [List.append_assoc, descend,
      ih (follow_amps n (Or.inl hts)) k (by simp only [enough]; omega), Option.bind_some]
    dsimp only
    rw [amps_complete n (head_ne_of_follow hts (by simp))]
    split
    · rename_i heq
      cases heq
      exact absurd rfl (head_ne_of_follow hts (t := .semi) (by simp))
    · rename_i heq
      cases heq
      rfl
  | @seq us vs t u n h h' ih ih' =>
    simp only [enough, List.length_append, List.length_replicate, List.length_cons] at hk
    obtain ⟨k, rfl⟩ : ∃ k', k = k' + 1 := Nat.exists_eq_add_one_of_ne_zero (by omega)
    have hfollow : Follow .pipe (List.replicate n .amp ++ (.semi :: (vs ++ ts))) :=
      follow_amps n (Or.inr rfl)
    rw [List.append_assoc, List.append_assoc, List.cons_append, descend,
      ih hfollow k (by simp only [enough]; omega), Option.bind_some]
    dsimp only
    rw [amps_complete n (by simp)]
    dsimp only
    rw [ih' hts k (by simp only [enough]; omega), Option.map_some]
  | @pipe us t h ih =>
    simp only [enough] at hk
    obtain ⟨k, rfl⟩ : ∃ k', k = k' + 1 := Nat.exists_eq_add_one_of_ne_zero (by omega)
    have hfollow : Follow .exec ts := by
      intro t' ht
      rcases hts t' ht with rfl | rfl | rfl <;> rfl
    rw [descend, ih hfollow k (by simp only [enough]; omega), Option.bind_some]
    dsimp only
    split
    · exact absurd (hts .bar rfl) (by simp)
    · rfl
  | @pipes us vs t u h h' ih ih' =>
    simp only [enough, List.length_append, List.length_cons] at hk
    obtain ⟨k, rfl⟩ : ∃ k', k = k' + 1 := Nat.exists_eq_add_one_of_ne_zero (by omega)
    have hfollow : Follow .exec (.bar :: (vs ++ ts)) := by
      intro t' ht
      cases ht
      rfl
    rw [List.append_assoc, List.cons_append, descend, ih hfollow k (by simp only [enough]; omega),
      Option.bind_some]
    dsimp only
    rw [ih' hts k (by simp only [enough]; omega), Option.map_some]
  | @block us t rs h ih =>
    simp only [enough, List.length_append, List.length_cons] at hk
    obtain ⟨k, rfl⟩ : ∃ k', k = k' + 1 := Nat.exists_eq_add_one_of_ne_zero (by omega)
    have hfollow : Follow .line (.rpar :: (redirTokens rs ++ ts)) := by
      intro t' ht
      cases ht
      rfl
    rw [List.cons_append, List.append_assoc, List.cons_append, descend,
      ih hfollow k (by simp only [enough]; omega), Option.bind_some]
    dsimp only
    rw [redirs_complete rs (EndsCommand.noRedir hts), Option.map_some]
  | simple rs items hlen =>
    rw [descend_simple (simple_head rs items hts), simple_complete rs items hlen hts]

end Descent

end Xv6Prng.Sh

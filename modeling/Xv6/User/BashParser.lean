import Mathlib.Data.List.Basic
import Mathlib.Tactic.Ring

/-!
# The parser of `bash`

`gettoken`, `peek`, `parsecmd` and the functions it calls, of `user/bash.c`.  The parser goes
through the line from left to right; what is left of it stands for the pointer `*ps`.  A word is the
two pointers that `gettoken` gives for it, each as the number of characters from there to the end of
the line.  `nulterminate` puts a NUL behind each word.

The grammar is a relation between sequences of tokens and trees; nothing of the parser is in it.

## Main results

* `parsecmd_iff`: `parsecmd` returns a tree if and only if the tokens of the line derive it, on any
  other line it ends in a panic, and the strings of the tree are the words of the line.
-/

namespace Xv6.User.Bash

/-! ## Tokens and trees -/

/-- `MAXARGS`. -/
abbrev MAXARGS : Nat := 10

/-- `O_RDONLY` and `O_WRONLY|O_CREATE`. -/
abbrev O_RDONLY : Nat := 0
@[inherit_doc O_RDONLY] abbrev O_WRONLY_CREATE : Nat := 0x201

/-- A word: `q` and `eq`, counted from the end of the line. -/
structure Word where
  q : Nat
  eq : Nat
  deriving DecidableEq, Repr

/-- What `gettoken` returns, other than 0, with words `W`. -/
inductive Tok (W : Type) where
  | bar
  | lparen
  | rparen
  | semicolon
  | ampersand
  | lt
  | gt
  /-- `>>`, which it returns as `+`. -/
  | append
  | word (w : W)
  deriving DecidableEq, Repr

/-- `struct cmd`, with words `W`. -/
inductive Tree (W : Type) where
  | exec (argv : List W)
  | redir (cmd : Tree W) (file : W) (mode fd : Nat)
  | pipe (left right : Tree W)
  | list (left right : Tree W)
  | back (cmd : Tree W)
  deriving Repr

/-- A redirection that is to be put around a command. -/
structure Redir (W : Type) where
  file : W
  mode : Nat
  fd : Nat

/-- `redircmd`, for one redirection after the other. -/
def redircmd {W : Type} (cmd : Tree W) (rs : List (Redir W)) : Tree W :=
  rs.foldl (fun cmd r => .redir cmd r.file r.mode r.fd) cmd

/-- Why the parser stops: its panics; `fuel` is none of them. -/
inductive Stop where
  | missingFile
  | parseblock
  | missingParen
  | badWord
  | tooManyArgs
  | leftovers
  | fuel
  deriving DecidableEq, Repr

/-! ## `gettoken` and `peek` -/

/-- `whitespace`. -/
def whitespace (c : Char) : Bool := c ∈ [' ', '\t', '\r', '\n', '\x0b']

/-- `symbols`. -/
def symbols (c : Char) : Bool := c ∈ ['<', '|', '>', '&', ';', '(', ')']

/-- A character of a word. -/
def wordChar (c : Char) : Bool := !whitespace c && !symbols c

/-- Skip white space. -/
def skip (s : List Char) : List Char := s.dropWhile whitespace

/-- `gettoken`: the token, if this is not the end, and what is left. -/
def gettoken (s : List Char) : Option (Tok Word) × List Char :=
  match skip s with
  | [] => (none, [])
  | '|' :: s => (some .bar, skip s)
  | '(' :: s => (some .lparen, skip s)
  | ')' :: s => (some .rparen, skip s)
  | ';' :: s => (some .semicolon, skip s)
  | '&' :: s => (some .ampersand, skip s)
  | '<' :: s => (some .lt, skip s)
  | '>' :: '>' :: s => (some .append, skip s)
  | '>' :: s => (some .gt, skip s)
  | c :: s =>
      let rest := (c :: s).dropWhile wordChar
      (some (.word ⟨(c :: s).length, rest.length⟩), skip rest)

/-- `peek`. -/
def peek (s : List Char) (toks : List Char) : Bool :=
  match skip s with
  | [] => false
  | c :: _ => c ∈ toks

/-! ## The parser -/

/-- `parseredirs`: the redirections to put around the command. -/
def parseredirs : Nat → List Char → Except Stop (List (Redir Word) × List Char)
  | 0, _ => .error .fuel
  | fuel + 1, s =>
      if peek s ['<', '>'] then
        let (tok, s) := gettoken (skip s)
        match gettoken s with
        | (some (.word w), s) => do
            let (rs, s) ← parseredirs fuel s
            match tok with
            | some .lt => return (⟨w, O_RDONLY, 0⟩ :: rs, s)
            | some .gt => return (⟨w, O_WRONLY_CREATE, 1⟩ :: rs, s)
            | some .append => return (⟨w, O_WRONLY_CREATE, 1⟩ :: rs, s)
            | _ => return (rs, s)
        | _ => .error .missingFile
      else .ok ([], skip s)

/-- The loop of `parseexec`: the words and the redirections. -/
def parseargs : Nat → Nat → List Char →
    Except Stop ((List Word × List (Redir Word)) × List Char)
  | 0, _, _ => .error .fuel
  | fuel + 1, argc, s =>
      if peek s ['|', ')', '&', ';'] then .ok (([], []), skip s)
      else
        match gettoken (skip s) with
        | (none, s) => .ok (([], []), s)
        | (some (.word w), s) =>
            if MAXARGS ≤ argc + 1 then .error .tooManyArgs
            else do
              let (rs, s) ← parseredirs (s.length + 1) s
              let ((argv, rs'), s) ← parseargs fuel (argc + 1) s
              return ((w :: argv, rs ++ rs'), s)
        | _ => .error .badWord

/-- The loop of `parseline`: one `backcmd` for each `&`. -/
def parseback : Nat → Tree Word → List Char → Except Stop (Tree Word × List Char)
  | 0, _, _ => .error .fuel
  | fuel + 1, cmd, s =>
      if peek s ['&'] then parseback fuel (.back cmd) (gettoken (skip s)).2 else .ok (cmd, skip s)

mutual

/-- `parseline`. -/
def parseline : Nat → List Char → Except Stop (Tree Word × List Char)
  | 0, _ => .error .fuel
  | fuel + 1, s => do
      let (cmd, s) ← parsepipe fuel s
      let (cmd, s) ← parseback (s.length + 1) cmd s
      if peek s [';'] then do
        let (right, s) ← parseline fuel (gettoken (skip s)).2
        return (.list cmd right, s)
      else return (cmd, skip s)

/-- `parsepipe`. -/
def parsepipe : Nat → List Char → Except Stop (Tree Word × List Char)
  | 0, _ => .error .fuel
  | fuel + 1, s => do
      let (cmd, s) ← parseexec fuel s
      if peek s ['|'] then do
        let (right, s) ← parsepipe fuel (gettoken (skip s)).2
        return (.pipe cmd right, s)
      else return (cmd, skip s)

/-- `parseexec`. -/
def parseexec : Nat → List Char → Except Stop (Tree Word × List Char)
  | 0, _ => .error .fuel
  | fuel + 1, s =>
      if peek s ['('] then parseblock fuel (skip s)
      else do
        let (rs, s) ← parseredirs (s.length + 1) (skip s)
        let ((argv, rs'), s) ← parseargs (s.length + 1) 0 s
        return (redircmd (.exec argv) (rs ++ rs'), s)

/-- `parseblock`. -/
def parseblock : Nat → List Char → Except Stop (Tree Word × List Char)
  | 0, _ => .error .fuel
  | fuel + 1, s =>
      if peek s ['('] then do
        let (cmd, s) ← parseline fuel (gettoken (skip s)).2
        if peek s [')'] then do
          let s := (gettoken (skip s)).2
          let (rs, s) ← parseredirs (s.length + 1) s
          return (redircmd cmd rs, s)
        else .error .missingParen
      else .error .parseblock

end

/-- `nulterminate`, in a buffer of `n` characters and a NUL. -/
def nulterminate (n : Nat) : Tree Word → List Char → List Char
  | .exec argv, buf => argv.foldl (fun buf w => buf.set (n - w.eq) '\x00') buf
  | .redir cmd file _ _, buf => (nulterminate n cmd buf).set (n - file.eq) '\x00'
  | .pipe left right, buf => nulterminate n right (nulterminate n left buf)
  | .list left right, buf => nulterminate n right (nulterminate n left buf)
  | .back cmd, buf => nulterminate n cmd buf

/-- A line: the characters before its NUL. -/
abbrev CString := { s : List Char // '\x00' ∉ s }

/-- `parsecmd`: the tree, and the line with its NULs. -/
def parsecmd (s : CString) : Except Stop (Tree Word × List Char) := do
  let (cmd, rest) ← parseline (4 * s.1.length + 4) s.1
  if skip rest = [] then return (cmd, nulterminate s.1.length cmd (s.1 ++ ['\x00']))
  else .error .leftovers

/-! ## The grammar -/

section Grammar

variable {W : Type}

/-- `<`, `>` or `>>`. -/
inductive RedirOp where
  | input
  | output
  | append

/-- Its token. -/
def RedirOp.tok : RedirOp → Tok W
  | input => .lt
  | output => .gt
  | append => .append

/-- Its redirection; `>>` is the same as `>`. -/
def RedirOp.redir (w : W) : RedirOp → Redir W
  | input => ⟨w, O_RDONLY, 0⟩
  | output => ⟨w, O_WRONLY_CREATE, 1⟩
  | append => ⟨w, O_WRONLY_CREATE, 1⟩

/-- `redir*`. -/
def redirTokens (ops : List (RedirOp × W)) : List (Tok W) :=
  ops.flatMap fun o => [o.1.tok, .word o.2]

/-- Its redirections. -/
def redirsOf (ops : List (RedirOp × W)) : List (Redir W) := ops.map fun o => o.1.redir o.2

/-- `(word redir*)*`. -/
def argTokens (items : List (W × List (RedirOp × W))) : List (Tok W) :=
  items.flatMap fun i => .word i.1 :: redirTokens i.2

/-- `backcmd`, `n` times. -/
def backs : Nat → Tree W → Tree W
  | 0, t => t
  | n + 1, t => backs n (.back t)

mutual

/-- `line ::= pipe '&'* [';' line]`. -/
inductive Line : List (Tok W) → Tree W → Prop
  | last {ts : List (Tok W)} {t : Tree W} (n : Nat) (hp : Pipe ts t) :
      Line (ts ++ List.replicate n .ampersand) (backs n t)
  | seq {ts us : List (Tok W)} {t u : Tree W} (n : Nat) (hp : Pipe ts t) (hl : Line us u) :
      Line (ts ++ (List.replicate n .ampersand ++ .semicolon :: us)) (.list (backs n t) u)

/-- `pipe ::= exec ['|' pipe]`. -/
inductive Pipe : List (Tok W) → Tree W → Prop
  | last {ts : List (Tok W)} {t : Tree W} (he : Exec ts t) : Pipe ts t
  | more {ts us : List (Tok W)} {t u : Tree W} (he : Exec ts t) (hp : Pipe us u) :
      Pipe (ts ++ .bar :: us) (.pipe t u)

/-- `exec ::= '(' line ')' redir* | redir* (word redir*)*`, with fewer than `MAXARGS` words. -/
inductive Exec : List (Tok W) → Tree W → Prop
  | block {ts : List (Tok W)} {t : Tree W} (ops : List (RedirOp × W)) (hl : Line ts t) :
      Exec (.lparen :: (ts ++ .rparen :: redirTokens ops)) (redircmd t (redirsOf ops))
  | simple (ops : List (RedirOp × W)) (items : List (W × List (RedirOp × W)))
      (hlen : items.length < MAXARGS) :
      Exec (redirTokens ops ++ argTokens items)
        (redircmd (.exec (items.map Prod.fst))
          (redirsOf ops ++ redirsOf (items.flatMap Prod.snd)))

end

end Grammar

/-! ## The tokens of a line -/

variable {s r : List Char}

theorem skip_skip (s : List Char) : skip (skip s) = skip s := by
  induction s with
  | nil => rfl
  | cons c s ih =>
      rw [show skip (c :: s) = if whitespace c then skip s else c :: s from List.dropWhile_cons]
      split
      · exact ih
      · rename_i hc
        rw [skip, List.dropWhile_cons, if_neg hc]

theorem skip_length (s : List Char) : (skip s).length ≤ s.length :=
  (List.dropWhile_suffix _).length_le

theorem gettoken_skip (s : List Char) : gettoken (skip s) = gettoken s := by
  rw [gettoken, gettoken, skip_skip]

/-- The first character of what is left is no white space. -/
theorem not_whitespace {c : Char} (h : skip s = c :: r) : whitespace c = false := by
  induction s with
  | nil => cases h
  | cons d s ih =>
      rw [skip, List.dropWhile_cons] at h
      split at h
      · exact ih h
      · rename_i hd
        cases h
        exact Bool.eq_false_iff.2 hd

/-- The symbol with which a token begins. -/
def Tok.first {W : Type} : Tok W → Option Char
  | bar => some '|'
  | lparen => some '('
  | rparen => some ')'
  | semicolon => some ';'
  | ampersand => some '&'
  | lt => some '<'
  | gt => some '>'
  | append => some '>'
  | word _ => none

/-- The shapes of a token: a symbol, two of them, or the characters of a word. -/
theorem gettoken_cases (s : List Char) :
    (skip s = [] ∧ gettoken s = (none, [])) ∨
    (∃ c r t, skip s = c :: r ∧ symbols c = true ∧ t.first = some c ∧
      (∀ w, t ≠ .word w) ∧ (gettoken s = (some t, skip r) ∨
        ∃ r', r = '>' :: r' ∧ gettoken s = (some t, skip r'))) ∨
    ∃ c r, skip s = c :: r ∧ wordChar c = true ∧ gettoken s =
      (some (.word ⟨(c :: r).length, ((c :: r).dropWhile wordChar).length⟩),
        skip ((c :: r).dropWhile wordChar)) := by
  rw [gettoken]
  split
  · rename_i h
    exact .inl ⟨h, rfl⟩
  iterate 6
    rename_i h
    exact .inr (.inl ⟨_, _, _, h, by decide, rfl, (fun _ ht => by cases ht), .inl rfl⟩)
  · rename_i h
    exact .inr (.inl ⟨_, _, _, h, by decide, rfl, (fun _ ht => by cases ht), .inr ⟨_, rfl, rfl⟩⟩)
  · rename_i h
    exact .inr (.inl ⟨_, _, _, h, by decide, rfl, (fun _ ht => by cases ht), .inl rfl⟩)
  · rename_i c r h1 h2 h3 h4 h5 h6 h7 h8 h
    refine .inr (.inr ⟨c, r, h, ?_, rfl⟩)
    have hsymbol : symbols c = false := by
      rw [symbols, decide_eq_false_iff_not]
      simp only [List.mem_cons, List.not_mem_nil, or_false]
      rintro (rfl | rfl | rfl | rfl | rfl | rfl | rfl)
      · exact h6 rfl
      · exact h1 rfl
      · exact h8 rfl
      · exact h5 rfl
      · exact h4 rfl
      · exact h2 rfl
      · exact h3 rfl
    simp [wordChar, not_whitespace h, hsymbol]

theorem gettoken_length {t : Tok Word} (h : (gettoken s).1 = some t) :
    (gettoken s).2.length < s.length := by
  have hskip := skip_length s
  rcases gettoken_cases s with ⟨-, hg⟩ | ⟨c, r, t, hs, -, -, -, hg | ⟨r', hr, hg⟩⟩ |
    ⟨c, r, hs, hc, hg⟩
  · rw [hg] at h
    cases h
  · have := skip_length r
    rw [hs, List.length_cons] at hskip
    rw [hg]
    dsimp only
    omega
  · have := skip_length r'
    rw [hs, hr, List.length_cons, List.length_cons] at hskip
    rw [hg]
    dsimp only
    omega
  · have := skip_length ((c :: r).dropWhile wordChar)
    have hdrop : ((c :: r).dropWhile wordChar).length ≤ r.length := by
      rw [List.dropWhile_cons, if_pos hc]
      exact (List.dropWhile_suffix _).length_le
    rw [hs, List.length_cons] at hskip
    rw [hg]
    dsimp only
    omega

/-- The tokens of a line, as `gettoken` splits it. -/
def tokens (s : List Char) : List (Tok Word) :=
  match _h : (gettoken s).1 with
  | none => []
  | some t => t :: tokens (gettoken s).2
termination_by s.length
decreasing_by exact gettoken_length _h

theorem tokens_none (h : (gettoken s).1 = none) : tokens s = [] := by
  rw [tokens]
  split
  · rfl
  · rename_i t ht
    rw [h] at ht
    cases ht

theorem tokens_some {t : Tok Word} (h : (gettoken s).1 = some t) :
    tokens s = t :: tokens (gettoken s).2 := by
  rw [tokens]
  split
  · rename_i hn
    rw [h] at hn
    cases hn
  · rename_i u hu
    rw [h] at hu
    cases hu
    rfl

theorem head_tokens (s : List Char) : (tokens s).head? = (gettoken s).1 := by
  cases h : (gettoken s).1 with
  | none => rw [tokens_none h]; rfl
  | some t => rw [tokens_some h]; rfl

theorem tokens_skip (s : List Char) : tokens (skip s) = tokens s := by
  cases h : (gettoken s).1 with
  | none => rw [tokens_none h, tokens_none (by rw [gettoken_skip, h])]
  | some t => rw [tokens_some h, tokens_some (by rw [gettoken_skip, h]), gettoken_skip]

theorem tokens_eq_nil : tokens s = [] ↔ skip s = [] := by
  rcases gettoken_cases s with ⟨hs, hg⟩ | ⟨c, r, t, hs, -, -, -, hg | ⟨r', -, hg⟩⟩ |
    ⟨c, r, hs, -, hg⟩
  · exact iff_of_true (tokens_none (by rw [hg])) hs
  all_goals
    refine iff_of_false ?_ (by rw [hs]; nofun)
    rw [tokens_some (by rw [hg])]
    nofun

theorem tokens_length (s : List Char) : (tokens s).length ≤ s.length := by
  induction hn : s.length using Nat.strongRecOn generalizing s with
  | ind n ih =>
      subst hn
      cases h : (gettoken s).1 with
      | none => rw [tokens_none h]; exact Nat.zero_le _
      | some t =>
          have hlt := gettoken_length h
          have := ih _ hlt (gettoken s).2 rfl
          rw [tokens_some h, List.length_cons]
          omega

/-- `peek` for symbols looks at the next token. -/
theorem peek_iff {toks : List Char} (htoks : ∀ c ∈ toks, symbols c = true) :
    peek s toks = true ↔ ∃ t c, (tokens s).head? = some t ∧ t.first = some c ∧ c ∈ toks := by
  rw [head_tokens, peek]
  rcases gettoken_cases s with ⟨hs, hg⟩ | ⟨c, r, t, hs, -, ht, -, hg | ⟨r', -, hg⟩⟩ |
    ⟨c, r, hs, hc, hg⟩
  · simp [hs, hg]
  · simp [hs, hg, ht]
  · simp [hs, hg, ht]
  · have hnot : c ∉ toks := by
      intro hmem
      simp [wordChar, htoks c hmem] at hc
    simp [hs, hg, Tok.first, hnot]

/-- After a token that `peek` has seen, its successors are left. -/
theorem tokens_cons {t : Tok Word} {ts : List (Tok Word)} (h : tokens s = t :: ts) :
    (gettoken s).1 = some t ∧ tokens (gettoken s).2 = ts := by
  have hhead := head_tokens s
  rw [h, List.head?_cons] at hhead
  rw [tokens_some hhead.symm] at h
  exact ⟨hhead.symm, (List.cons.inj h).2⟩

theorem peek_symbol {c : Char} {t₀ : Tok Word} (hc : symbols c = true)
    (ht : ∀ t : Tok Word, t.first = some c ↔ t = t₀) :
    peek s [c] = true ↔ (tokens s).head? = some t₀ := by
  rw [peek_iff (by simpa using hc)]
  constructor
  · rintro ⟨t, d, hhead, hfirst, hd⟩
    rw [List.mem_singleton.1 hd] at hfirst
    rw [hhead, (ht t).1 hfirst]
  · intro hhead
    exact ⟨t₀, c, hhead, (ht t₀).2 rfl, List.mem_singleton.2 rfl⟩

theorem peek_ampersand : peek s ['&'] = true ↔ (tokens s).head? = some .ampersand :=
  peek_symbol (by decide) fun t => by cases t <;> simp [Tok.first]

theorem peek_semicolon : peek s [';'] = true ↔ (tokens s).head? = some .semicolon :=
  peek_symbol (by decide) fun t => by cases t <;> simp [Tok.first]

theorem peek_bar : peek s ['|'] = true ↔ (tokens s).head? = some .bar :=
  peek_symbol (by decide) fun t => by cases t <;> simp [Tok.first]

theorem peek_lparen : peek s ['('] = true ↔ (tokens s).head? = some .lparen :=
  peek_symbol (by decide) fun t => by cases t <;> simp [Tok.first]

theorem peek_rparen : peek s [')'] = true ↔ (tokens s).head? = some .rparen :=
  peek_symbol (by decide) fun t => by cases t <;> simp [Tok.first]

theorem peek_redir : peek s ['<', '>'] = true ↔ ∃ op : RedirOp, (tokens s).head? = some op.tok := by
  rw [peek_iff (by simp [symbols])]
  constructor
  · rintro ⟨t, c, hhead, hfirst, hc⟩
    simp only [List.mem_cons, List.not_mem_nil, or_false] at hc
    obtain rfl | rfl := hc
    · cases t <;> simp [Tok.first] at hfirst
      exact ⟨.input, hhead⟩
    · cases t <;> simp [Tok.first] at hfirst
      · exact ⟨.output, hhead⟩
      · exact ⟨.append, hhead⟩
  · rintro ⟨op, hhead⟩
    cases op with
    | input => exact ⟨_, _, hhead, rfl, by decide⟩
    | output => exact ⟨_, _, hhead, rfl, by decide⟩
    | append => exact ⟨_, _, hhead, rfl, by decide⟩

/-- The tokens that end a simple command. -/
def ends : List (Tok Word) := [.bar, .rparen, .ampersand, .semicolon]

theorem peek_ends :
    peek s ['|', ')', '&', ';'] = true ↔ ∃ t ∈ ends, (tokens s).head? = some t := by
  rw [peek_iff (by simp [symbols])]
  constructor
  · rintro ⟨t, c, hhead, hfirst, hc⟩
    refine ⟨t, ?_, hhead⟩
    simp only [List.mem_cons, List.not_mem_nil, or_false] at hc
    obtain rfl | rfl | rfl | rfl := hc <;> cases t <;> simp [Tok.first, ends] at hfirst ⊢
  · rintro ⟨t, ht, hhead⟩
    simp only [ends, List.mem_cons, List.not_mem_nil, or_false] at ht
    obtain rfl | rfl | rfl | rfl := ht <;> exact ⟨_, _, hhead, rfl, by decide⟩

/-! ## Redirections and arguments -/

/-- A parsing function got through, and the tokens it took derive its result; or it panicked. -/
def Parsed {α : Type} (s : List Char) (x : Except Stop (α × List Char))
    (P : List (Tok Word) → α → Prop) : Prop :=
  match x with
  | .error e => e ≠ .fuel
  | .ok (a, r) => ∃ ts, tokens s = ts ++ tokens r ∧ P ts a

/-- One function after the other. -/
theorem Parsed.bind {α β : Type} {x : Except Stop (α × List Char)}
    {f : α × List Char → Except Stop (β × List Char)} {P : List (Tok Word) → α → Prop}
    {Q : List (Tok Word) → β → Prop} (hx : Parsed s x P)
    (hf : ∀ a r ts, tokens s = ts ++ tokens r → P ts a →
      Parsed r (f (a, r)) fun us b => Q (ts ++ us) b) : Parsed s (x >>= f) Q := by
  cases x with
  | error e => exact hx
  | ok y =>
      obtain ⟨a, r⟩ := y
      obtain ⟨ts, hts, ha⟩ := hx
      have hr := hf a r ts hts ha
      change Parsed s (f (a, r)) Q
      cases hfx : f (a, r) with
      | error e =>
          rw [hfx] at hr
          exact hr
      | ok z =>
          rw [hfx] at hr
          obtain ⟨us, hus, hb⟩ := hr
          exact ⟨ts ++ us, by rw [hts, hus, List.append_assoc], hb⟩

theorem Parsed.imp {α : Type} {x : Except Stop (α × List Char)}
    {P Q : List (Tok Word) → α → Prop} (hx : Parsed s x P) (h : ∀ ts a, P ts a → Q ts a) :
    Parsed s x Q := by
  cases x with
  | error e => exact hx
  | ok y =>
      obtain ⟨ts, hts, ha⟩ := hx
      exact ⟨ts, hts, h ts _ ha⟩

theorem Parsed.congr {α : Type} {x : Except Stop (α × List Char)}
    {P : List (Tok Word) → α → Prop} (h : tokens s = tokens r) (hx : Parsed r x P) :
    Parsed s x P := by
  cases x with
  | error e => exact hx
  | ok y =>
      obtain ⟨ts, hts, ha⟩ := hx
      exact ⟨ts, h.trans hts, ha⟩

/-- A token that was taken before. -/
theorem Parsed.cons {α : Type} {x : Except Stop (α × List Char)} {t : Tok Word}
    {P : List (Tok Word) → α → Prop} (h : tokens s = t :: tokens r)
    (hx : Parsed r x fun ts a => P (t :: ts) a) : Parsed s x P := by
  cases x with
  | error e => exact hx
  | ok y =>
      obtain ⟨ts, hts, ha⟩ := hx
      exact ⟨t :: ts, by rw [h, hts]; rfl, ha⟩

theorem Parsed.skip {α : Type} {a : α} {P : List (Tok Word) → α → Prop} (h : P [] a) :
    Parsed s (.ok (a, Bash.skip s)) P :=
  ⟨[], by rw [tokens_skip]; rfl, h⟩

/-- It starts with a redirection. -/
def Redirects (ts : List (Tok Word)) : Prop := ∃ op : RedirOp, ts.head? = some op.tok

theorem parseredirs_done {fuel : Nat} (h : ¬Redirects (tokens s)) :
    parseredirs (fuel + 1) s = .ok ([], skip s) := by
  rw [parseredirs, if_neg (by rwa [peek_redir])]

theorem parseredirs_op (fuel : Nat) {op : RedirOp} {w : Word} {ts : List (Tok Word)}
    (h : tokens s = op.tok :: .word w :: ts) : ∃ r, tokens r = ts ∧
      parseredirs (fuel + 1) s =
        (parseredirs fuel r).map fun x => (op.redir w :: x.1, x.2) := by
  obtain ⟨htok, hrest⟩ := tokens_cons h
  obtain ⟨hword, hts⟩ := tokens_cons hrest
  refine ⟨_, hts, ?_⟩
  rw [parseredirs, if_pos (peek_redir.2 ⟨op, by rw [h]; rfl⟩), gettoken_skip]
  rcases hg : gettoken s with ⟨t, s₁⟩
  rw [hg] at htok hword
  rcases hg₂ : gettoken s₁ with ⟨u, s₂⟩
  dsimp only at htok hword ⊢
  rw [hg₂] at hword
  dsimp only at hword ⊢
  subst htok hword
  rw [hg₂]
  dsimp only
  cases op <;> cases parseredirs fuel s₂ <;> rfl

theorem parseredirs_missing {fuel : Nat} {op : RedirOp} {ts : List (Tok Word)}
    (h : tokens s = op.tok :: ts) (hts : ∀ w, ts.head? ≠ some (.word w)) :
    parseredirs (fuel + 1) s = .error .missingFile := by
  obtain ⟨htok, hrest⟩ := tokens_cons h
  rw [parseredirs, if_pos (peek_redir.2 ⟨op, by rw [h]; rfl⟩), gettoken_skip]
  rcases hg : gettoken s with ⟨t, s₁⟩
  rw [hg] at hrest
  dsimp only at hrest ⊢
  have hhead := head_tokens s₁
  rw [hrest] at hhead
  split
  · rename_i w r heq
    rw [heq] at hhead
    exact absurd hhead (hts w)
  · rfl

/-- Either no redirection, or one with its word, or one without. -/
theorem redirects_cases (ts : List (Tok Word)) : ¬Redirects ts ∨
    (∃ (op : RedirOp) (w : Word) (us : _), ts = op.tok :: .word w :: us) ∨
    ∃ (op : RedirOp) (us : _), ts = op.tok :: us ∧ ∀ w, us.head? ≠ some (.word w) := by
  by_cases h : Redirects ts
  · obtain ⟨op, hhead⟩ := h
    obtain ⟨us, rfl⟩ := List.head?_eq_some_iff.1 hhead
    by_cases hw : ∃ w, us.head? = some (.word w)
    · obtain ⟨w, hw⟩ := hw
      obtain ⟨vs, rfl⟩ := List.head?_eq_some_iff.1 hw
      exact .inr (.inl ⟨op, w, vs, rfl⟩)
    · exact .inr (.inr ⟨op, us, rfl, fun w hus => hw ⟨w, hus⟩⟩)
  · exact .inl h

theorem parseredirs_parsed (fuel : Nat) : ∀ s, (tokens s).length < fuel →
    Parsed s (parseredirs fuel s) fun ts rs => ∃ ops, ts = redirTokens ops ∧ rs = redirsOf ops := by
  induction fuel with
  | zero => exact fun s h => absurd h (Nat.not_lt_zero _)
  | succ fuel ih =>
      intro s hfuel
      rcases redirects_cases (tokens s) with h | ⟨op, w, us, h⟩ | ⟨op, us, h, hus⟩
      · rw [parseredirs_done h]
        exact .skip ⟨[], rfl, rfl⟩
      · obtain ⟨r, hr, heq⟩ := parseredirs_op fuel h
        rw [h, List.length_cons, List.length_cons, ← hr] at hfuel
        have hparsed := ih r (by omega)
        rw [heq]
        cases hx : parseredirs fuel r with
        | error e =>
            rw [hx] at hparsed
            exact hparsed
        | ok y =>
            rw [hx] at hparsed
            obtain ⟨ts, hts, ops, rfl, hrs⟩ := hparsed
            refine ⟨op.tok :: .word w :: redirTokens ops, ?_, (op, w) :: ops, rfl, ?_⟩
            · rw [h, ← hr, hts]
              rfl
            · rw [hrs]
              rfl
      · rw [parseredirs_missing h hus]
        exact nofun

theorem parseredirs_complete (ops : List (RedirOp × Word)) : ∀ fuel s rest,
    tokens s = redirTokens ops ++ rest → ¬Redirects rest → ops.length < fuel →
      ∃ r, parseredirs fuel s = .ok (redirsOf ops, r) ∧ tokens r = rest := by
  induction ops with
  | nil =>
      intro fuel s rest hs hrest hfuel
      obtain ⟨fuel, rfl⟩ := Nat.exists_eq_succ_of_ne_zero (Nat.ne_of_gt hfuel)
      change tokens s = rest at hs
      rw [← hs] at hrest
      exact ⟨skip s, parseredirs_done hrest, by rw [tokens_skip, hs]⟩
  | cons o ops ih =>
      intro fuel s rest hs hrest hfuel
      obtain ⟨fuel, rfl⟩ := Nat.exists_eq_succ_of_ne_zero (Nat.ne_of_gt (Nat.zero_lt_of_lt hfuel))
      obtain ⟨r, hr, heq⟩ := @parseredirs_op s fuel o.1 o.2 _ hs
      obtain ⟨r', hparse, hr'⟩ := ih fuel r rest hr hrest (Nat.lt_of_succ_lt_succ hfuel)
      exact ⟨r', by rw [heq, hparse]; rfl, hr'⟩

/-- What may follow a simple command. -/
def Follow (l rest : List (Tok Word)) : Prop := ∀ t, rest.head? = some t → t ∈ l

theorem Follow.not_redirects {l rest : List (Tok Word)} (h : Follow l rest)
    (hl : ∀ op : RedirOp, op.tok ∉ l) : ¬Redirects rest := by
  rintro ⟨op, hop⟩
  exact hl op (h _ hop)

theorem tok_not_mem_ends (op : RedirOp) : op.tok ∉ ends := by
  cases op <;> decide

theorem parseargs_done (fuel argc : Nat) (h : Follow ends (tokens s)) :
    ∃ r, parseargs (fuel + 1) argc s = .ok (([], []), r) ∧ tokens r = tokens s := by
  rw [parseargs]
  split
  · exact ⟨skip s, rfl, tokens_skip s⟩
  · rename_i hpeek
    have hnone : (gettoken s).1 = none := by
      rw [← head_tokens]
      cases hhead : (tokens s).head? with
      | none => rfl
      | some t => exact absurd (peek_ends.2 ⟨t, h t hhead, hhead⟩) hpeek
    refine ⟨[], ?_, ?_⟩
    · rcases gettoken_cases s with ⟨-, hg⟩ | ⟨c, r, t, -, -, -, -, hg | ⟨r', -, hg⟩⟩ |
        ⟨c, r, -, -, hg⟩
      · rw [gettoken_skip, hg]
      all_goals
        rw [hg] at hnone
        cases hnone
    · rw [tokens_none hnone, tokens_none rfl]

theorem parseargs_word (fuel argc : Nat) {w : Word} {ts : List (Tok Word)}
    (h : tokens s = .word w :: ts) : ∃ r, tokens r = ts ∧ parseargs (fuel + 1) argc s =
      if MAXARGS ≤ argc + 1 then .error .tooManyArgs
      else do
        let (rs, s) ← parseredirs (r.length + 1) r
        let ((argv, rs'), s) ← parseargs fuel (argc + 1) s
        return ((w :: argv, rs ++ rs'), s) := by
  obtain ⟨hword, hts⟩ := tokens_cons h
  refine ⟨_, hts, ?_⟩
  have hpeek : ¬peek s ['|', ')', '&', ';'] = true := by
    rw [peek_ends, h]
    rintro ⟨t, ht, hhead⟩
    cases hhead
    simp [ends] at ht
  rw [parseargs, if_neg hpeek, gettoken_skip]
  rcases hg : gettoken s with ⟨t, s₁⟩
  rw [hg] at hword
  dsimp only at hword ⊢
  subst hword
  rfl

theorem parseargs_bad {fuel argc : Nat} {t : Tok Word} (h : (tokens s).head? = some t)
    (hends : t ∉ ends) (hword : ∀ w, t ≠ .word w) :
    parseargs (fuel + 1) argc s = .error .badWord := by
  have hpeek : ¬peek s ['|', ')', '&', ';'] = true := by
    rw [peek_ends, h]
    rintro ⟨u, hu, heq⟩
    cases heq
    exact hends hu
  rw [head_tokens] at h
  rw [parseargs, if_neg hpeek, gettoken_skip]
  rcases hg : gettoken s with ⟨t', s₁⟩
  rw [hg] at h
  dsimp only at h
  subst h
  cases t with
  | word w => exact absurd rfl (hword w)
  | _ => rfl

theorem redirTokens_length (ops : List (RedirOp × Word)) :
    ops.length ≤ (redirTokens ops).length := by
  induction ops with
  | nil => exact Nat.le_refl _
  | cons o ops ih =>
      simp only [redirTokens, List.flatMap_cons, List.length_append, List.length_cons] at ih ⊢
      omega

theorem argTokens_length (items : List (Word × List (RedirOp × Word))) :
    items.length ≤ (argTokens items).length := by
  induction items with
  | nil => exact Nat.le_refl _
  | cons o items ih =>
      simp only [argTokens, List.flatMap_cons, List.length_append, List.length_cons] at ih ⊢
      omega

theorem parseargs_parsed (fuel : Nat) : ∀ argc s, (tokens s).length < fuel → argc < MAXARGS →
    Parsed s (parseargs fuel argc s) fun ts x => ∃ items, ts = argTokens items ∧
      x = (items.map Prod.fst, redirsOf (items.flatMap Prod.snd)) ∧
      argc + items.length < MAXARGS := by
  induction fuel with
  | zero => exact fun _ s h => absurd h (Nat.not_lt_zero _)
  | succ fuel ih =>
      intro argc s hfuel hargc
      cases hhead : (tokens s).head? with
      | none =>
          obtain ⟨r, hr, htokens⟩ := parseargs_done (s := s) fuel argc
            (fun t ht => by rw [hhead] at ht; cases ht)
          rw [hr]
          exact ⟨[], by rw [htokens]; rfl, [], rfl, rfl, hargc⟩
      | some t =>
          by_cases hends : t ∈ ends
          · obtain ⟨r, hr, htokens⟩ := parseargs_done (s := s) fuel argc
              (fun u hu => by rw [hhead] at hu; cases hu; exact hends)
            rw [hr]
            exact ⟨[], by rw [htokens]; rfl, [], rfl, rfl, hargc⟩
          · by_cases hword : ∃ w, t = .word w
            · obtain ⟨w, rfl⟩ := hword
              obtain ⟨ts, hts⟩ := List.head?_eq_some_iff.1 hhead
              obtain ⟨r, hr, heq⟩ := parseargs_word fuel argc hts
              rw [hts, List.length_cons, ← hr] at hfuel
              rw [heq]
              split
              · exact nofun
              · rename_i hmax
                refine .cons (hts.trans (by rw [hr])) ?_
                refine (parseredirs_parsed (r.length + 1) r
                  (Nat.lt_succ_of_le (tokens_length r))).bind ?_
                rintro rs r' ts hr' ⟨ops, rfl, rfl⟩
                have hlen := congrArg List.length hr'
                rw [List.length_append] at hlen
                refine (ih (argc + 1) r' (by omega) (by omega)).bind ?_
                rintro ⟨argv, rs'⟩ r'' us hr'' ⟨items, rfl, hx, hlen'⟩
                cases hx
                refine ⟨[], rfl, (w, ops) :: items, ?_, ?_, ?_⟩
                · simp [argTokens]
                · simp [redirsOf]
                · rw [List.length_cons]
                  omega
            · rw [parseargs_bad hhead hends fun w hw => hword ⟨w, hw⟩]
              exact nofun

theorem not_redirects_args {rest : List (Tok Word)} (hrest : Follow ends rest)
    (items : List (Word × List (RedirOp × Word))) : ¬Redirects (argTokens items ++ rest) := by
  cases items with
  | nil => exact hrest.not_redirects tok_not_mem_ends
  | cons j items =>
      rintro ⟨op, hop⟩
      cases op <;> cases hop

theorem parseargs_complete (items : List (Word × List (RedirOp × Word))) :
    ∀ fuel argc s rest, tokens s = argTokens items ++ rest → Follow ends rest →
      items.length < fuel → argc + items.length < MAXARGS →
      ∃ r, parseargs fuel argc s =
          .ok ((items.map Prod.fst, redirsOf (items.flatMap Prod.snd)), r) ∧ tokens r = rest := by
  induction items with
  | nil =>
      intro fuel argc s rest hs hrest hfuel _
      obtain ⟨fuel, rfl⟩ := Nat.exists_eq_succ_of_ne_zero (Nat.ne_of_gt hfuel)
      change tokens s = rest at hs
      rw [← hs] at hrest
      obtain ⟨r, hr, htokens⟩ := parseargs_done fuel argc hrest
      exact ⟨r, hr, htokens.trans hs⟩
  | cons i items ih =>
      intro fuel argc s rest hs hrest hfuel hmax
      obtain ⟨fuel, rfl⟩ := Nat.exists_eq_succ_of_ne_zero (Nat.ne_of_gt (Nat.zero_lt_of_lt hfuel))
      rw [List.length_cons] at hfuel hmax
      have hword : tokens s = .word i.1 :: (redirTokens i.2 ++ (argTokens items ++ rest)) := by
        rw [hs]
        simp [argTokens]
      obtain ⟨r, hr, heq⟩ := parseargs_word fuel argc hword
      have hlen := congrArg List.length hr
      rw [List.length_append] at hlen
      have hops := redirTokens_length i.2
      have hle := tokens_length r
      obtain ⟨r', hredirs, hr'⟩ := parseredirs_complete i.2 (r.length + 1) r _ hr
        (not_redirects_args hrest items) (by omega)
      obtain ⟨r'', hargs, hr''⟩ := ih fuel (argc + 1) r' rest hr' hrest (by omega) (by omega)
      refine ⟨r'', ?_, hr''⟩
      rw [heq, if_neg (by omega), hredirs]
      simp only [bind, Except.bind, hargs]
      simp [redirsOf, pure, Except.pure]

/-! ## Background commands -/

theorem parseback_parsed (fuel : Nat) : ∀ cmd s, (tokens s).length < fuel →
    Parsed s (parseback fuel cmd s) fun ts t =>
      ∃ n, ts = List.replicate n .ampersand ∧ t = backs n cmd := by
  induction fuel with
  | zero => exact fun _ s h => absurd h (Nat.not_lt_zero _)
  | succ fuel ih =>
      intro cmd s hfuel
      rw [parseback]
      split
      · rename_i hpeek
        obtain ⟨ts, hts⟩ := List.head?_eq_some_iff.1 (peek_ampersand.1 hpeek)
        obtain ⟨-, hrest⟩ := tokens_cons hts
        rw [gettoken_skip]
        rw [hts, List.length_cons, ← hrest] at hfuel
        refine .cons (hts.trans (by rw [hrest])) ((ih (.back cmd) (gettoken s).2 (by omega)).imp ?_)
        rintro us t ⟨n, rfl, rfl⟩
        exact ⟨n + 1, rfl, rfl⟩
      · exact .skip ⟨0, rfl, rfl⟩

theorem parseback_complete (n : Nat) : ∀ fuel cmd s rest,
    tokens s = List.replicate n .ampersand ++ rest → rest.head? ≠ some .ampersand → n < fuel →
      ∃ r, parseback fuel cmd s = .ok (backs n cmd, r) ∧ tokens r = rest := by
  induction n with
  | zero =>
      intro fuel cmd s rest hs hrest hfuel
      obtain ⟨fuel, rfl⟩ := Nat.exists_eq_succ_of_ne_zero (Nat.ne_of_gt hfuel)
      change tokens s = rest at hs
      rw [← hs] at hrest
      refine ⟨skip s, ?_, by rw [tokens_skip, hs]⟩
      rw [parseback, if_neg (by rwa [peek_ampersand])]
      rfl
  | succ n ih =>
      intro fuel cmd s rest hs hrest hfuel
      obtain ⟨fuel, rfl⟩ := Nat.exists_eq_succ_of_ne_zero (Nat.ne_of_gt (Nat.zero_lt_of_lt hfuel))
      obtain ⟨-, hr⟩ := tokens_cons hs
      obtain ⟨r, hparse, htokens⟩ := ih fuel (.back cmd) (gettoken s).2 rest hr hrest (by omega)
      refine ⟨r, ?_, htokens⟩
      rw [parseback, if_pos (peek_ampersand.2 (by rw [hs]; rfl)), gettoken_skip, hparse]
      rfl

/-! ## The parser follows the grammar -/

/-- With enough fuel each function derives what it returns. -/
structure Sound (fuel : Nat) : Prop where
  line : ∀ s, 4 * (tokens s).length + 4 ≤ fuel → Parsed s (parseline fuel s) Line
  pipe : ∀ s, 4 * (tokens s).length + 3 ≤ fuel → Parsed s (parsepipe fuel s) Pipe
  exec : ∀ s, 4 * (tokens s).length + 2 ≤ fuel → Parsed s (parseexec fuel s) Exec
  block : ∀ s, 4 * (tokens s).length + 1 ≤ fuel → Parsed s (parseblock fuel s) Exec

variable {fuel : Nat}

theorem Sound.parseline (h : Sound fuel) (s : List Char)
    (hfuel : 4 * (tokens s).length + 4 ≤ fuel + 1) : Parsed s (parseline (fuel + 1) s) Line := by
  rw [Bash.parseline]
  refine (h.pipe s (by omega)).bind ?_
  intro t r ts hr ht
  refine (parseback_parsed (r.length + 1) t r (Nat.lt_succ_of_le (tokens_length r))).bind ?_
  rintro t' r' us hr' ⟨n, rfl, rfl⟩
  dsimp only
  split
  · rename_i hpeek
    obtain ⟨vs, hvs⟩ := List.head?_eq_some_iff.1 (peek_semicolon.1 hpeek)
    obtain ⟨-, hrest⟩ := tokens_cons hvs
    rw [hr, hr', hvs, List.length_append, List.length_append, List.length_cons, ← hrest] at hfuel
    rw [gettoken_skip]
    refine .cons (hvs.trans (by rw [hrest])) ?_
    refine (h.line (gettoken r').2 (by omega)).bind ?_
    intro u r'' ws hr'' hu
    refine ⟨[], rfl, ?_⟩
    simpa using Line.seq n ht hu
  · exact .skip (by simpa using Line.last n ht)

theorem Sound.parsepipe (h : Sound fuel) (s : List Char)
    (hfuel : 4 * (tokens s).length + 3 ≤ fuel + 1) : Parsed s (parsepipe (fuel + 1) s) Pipe := by
  rw [Bash.parsepipe]
  refine (h.exec s (by omega)).bind ?_
  intro t r ts hr ht
  dsimp only
  split
  · rename_i hpeek
    obtain ⟨vs, hvs⟩ := List.head?_eq_some_iff.1 (peek_bar.1 hpeek)
    obtain ⟨-, hrest⟩ := tokens_cons hvs
    rw [hr, hvs, List.length_append, List.length_cons, ← hrest] at hfuel
    rw [gettoken_skip]
    refine .cons (hvs.trans (by rw [hrest])) ?_
    refine (h.pipe (gettoken r).2 (by omega)).bind ?_
    intro u r'' ws hr'' hu
    refine ⟨[], rfl, ?_⟩
    simpa using Pipe.more ht hu
  · exact .skip (by simpa using Pipe.last ht)

theorem Sound.parseexec (h : Sound fuel) (s : List Char)
    (hfuel : 4 * (tokens s).length + 2 ≤ fuel + 1) : Parsed s (parseexec (fuel + 1) s) Exec := by
  rw [Bash.parseexec]
  split
  · exact .congr (tokens_skip s).symm (h.block (skip s) (by rw [tokens_skip]; omega))
  · have hredirs := parseredirs_parsed (s.length + 1) (skip s)
      (by rw [tokens_skip]; exact Nat.lt_succ_of_le (tokens_length s))
    refine (Parsed.congr (tokens_skip s).symm hredirs).bind ?_
    rintro rs r ts hr ⟨ops, rfl, rfl⟩
    refine (parseargs_parsed (r.length + 1) 0 r (Nat.lt_succ_of_le (tokens_length r))
      (by decide)).bind ?_
    rintro ⟨argv, rs'⟩ r' us hr' ⟨items, rfl, hx, hlen⟩
    cases hx
    refine ⟨[], rfl, ?_⟩
    simpa using Exec.simple ops items (by simpa using hlen)

theorem Sound.parseblock (h : Sound fuel) (s : List Char)
    (hfuel : 4 * (tokens s).length + 1 ≤ fuel + 1) : Parsed s (parseblock (fuel + 1) s) Exec := by
  rw [Bash.parseblock]
  split
  · rename_i hpeek
    obtain ⟨vs, hvs⟩ := List.head?_eq_some_iff.1 (peek_lparen.1 hpeek)
    obtain ⟨-, hrest⟩ := tokens_cons hvs
    rw [hvs, List.length_cons, ← hrest] at hfuel
    rw [gettoken_skip]
    refine .cons (hvs.trans (by rw [hrest])) ?_
    refine (h.line (gettoken s).2 (by omega)).bind ?_
    intro t r ts hr ht
    dsimp only
    split
    · rename_i hclose
      obtain ⟨ws, hws⟩ := List.head?_eq_some_iff.1 (peek_rparen.1 hclose)
      obtain ⟨-, hrest'⟩ := tokens_cons hws
      rw [gettoken_skip]
      refine .cons (hws.trans (by rw [hrest'])) ?_
      refine (parseredirs_parsed _ _ (Nat.lt_succ_of_le (tokens_length _))).bind ?_
      rintro rs r' us hr' ⟨ops, rfl, rfl⟩
      refine ⟨[], rfl, ?_⟩
      simpa using Exec.block ops ht
    · exact nofun
  · exact nofun

theorem sound (fuel : Nat) : Sound fuel := by
  induction fuel with
  | zero => constructor <;> (intro s h; omega)
  | succ fuel ih => exact ⟨ih.parseline, ih.parsepipe, ih.parseexec, ih.parseblock⟩

/-- With enough fuel each function returns what the tokens before the right successor derive. -/
structure Complete (fuel : Nat) : Prop where
  line : ∀ {ts t s rest}, Line ts t → tokens s = ts ++ rest → Follow [.rparen] rest →
    4 * (tokens s).length + 4 ≤ fuel → ∃ r, parseline fuel s = .ok (t, r) ∧ tokens r = rest
  pipe : ∀ {ts t s rest}, Pipe ts t → tokens s = ts ++ rest →
    Follow [.rparen, .ampersand, .semicolon] rest →
    4 * (tokens s).length + 3 ≤ fuel → ∃ r, parsepipe fuel s = .ok (t, r) ∧ tokens r = rest
  exec : ∀ {ts t s rest}, Exec ts t → tokens s = ts ++ rest → Follow ends rest →
    4 * (tokens s).length + 2 ≤ fuel → ∃ r, parseexec fuel s = .ok (t, r) ∧ tokens r = rest
  block : ∀ {ts t s rest ops}, Line ts t →
    tokens s = .lparen :: (ts ++ .rparen :: (redirTokens ops ++ rest)) → Follow ends rest →
    4 * (tokens s).length + 1 ≤ fuel →
    ∃ r, parseblock fuel s = .ok (redircmd t (redirsOf ops), r) ∧ tokens r = rest

theorem Follow.ampersands {rest : List (Tok Word)} {l : List (Tok Word)} (h : Follow l rest)
    (hl : .ampersand ∈ l) (n : Nat) : Follow l (List.replicate n .ampersand ++ rest) := by
  cases n with
  | zero => exact h
  | succ n =>
      intro t ht
      cases ht
      exact hl

theorem Follow.mono {rest l l' : List (Tok Word)} (h : Follow l rest) (hl : l ⊆ l') :
    Follow l' rest :=
  fun t ht => hl (h t ht)

theorem Complete.parseline (h : Complete fuel) {ts t s rest} (hline : Line ts t)
    (hs : tokens s = ts ++ rest) (hrest : Follow [.rparen] rest)
    (hfuel : 4 * (tokens s).length + 4 ≤ fuel + 1) :
    ∃ r, parseline (fuel + 1) s = .ok (t, r) ∧ tokens r = rest := by
  rw [Bash.parseline]
  cases hline with
  | @last ts t n hp =>
      rw [List.append_assoc] at hs
      obtain ⟨r, hpipe, hr⟩ := h.pipe hp hs
        ((hrest.mono (by simp)).ampersands (by simp) n) (by omega)
      have hlen := congrArg List.length hr
      have hle := tokens_length r
      rw [List.length_append, List.length_replicate] at hlen
      obtain ⟨r', hback, hr'⟩ := parseback_complete n (r.length + 1) t r rest hr
        (fun hhead => by simpa using hrest _ hhead) (by omega)
      have hpeek : ¬peek r' [';'] = true := by
        rw [peek_semicolon, hr']
        exact fun hhead => by simpa using hrest _ hhead
      refine ⟨skip r', ?_, by rw [tokens_skip, hr']⟩
      simp only [hpipe, bind, Except.bind, hback, if_neg hpeek]
      rfl
  | @seq ts us t u n hp hl =>
      rw [List.append_assoc, List.append_assoc, List.cons_append] at hs
      obtain ⟨r, hpipe, hr⟩ := h.pipe hp hs
        (Follow.ampersands (fun t ht => by cases ht; simp) (by simp) n) (by omega)
      have hlen := congrArg List.length hr
      have hle := tokens_length r
      rw [List.length_append, List.length_replicate] at hlen
      obtain ⟨r', hback, hr'⟩ := parseback_complete n (r.length + 1) t r _ hr (by simp) (by omega)
      obtain ⟨-, hrest'⟩ := tokens_cons hr'
      have hlen' := congrArg List.length hs
      rw [List.length_append, List.length_append, List.length_cons, ← hrest'] at hlen'
      obtain ⟨r'', hright, hr''⟩ := h.line hl hrest' hrest (by omega)
      refine ⟨r'', ?_, hr''⟩
      simp only [hpipe, bind, Except.bind, hback,
        if_pos (peek_semicolon.2 (by rw [hr']; rfl) : peek r' [';'] = true), gettoken_skip, hright]
      rfl

theorem Complete.parsepipe (h : Complete fuel) {ts t s rest} (hpipe : Pipe ts t)
    (hs : tokens s = ts ++ rest) (hrest : Follow [.rparen, .ampersand, .semicolon] rest)
    (hfuel : 4 * (tokens s).length + 3 ≤ fuel + 1) :
    ∃ r, parsepipe (fuel + 1) s = .ok (t, r) ∧ tokens r = rest := by
  rw [Bash.parsepipe]
  cases hpipe with
  | last he =>
      obtain ⟨r, hexec, hr⟩ := h.exec he hs (hrest.mono (by simp [ends])) (by omega)
      have hpeek : ¬peek r ['|'] = true := by
        rw [peek_bar, hr]
        exact fun hhead => by simpa using hrest _ hhead
      refine ⟨skip r, ?_, by rw [tokens_skip, hr]⟩
      simp only [hexec, bind, Except.bind, if_neg hpeek]
      rfl
  | @more ts us t u he hp =>
      rw [List.append_assoc, List.cons_append] at hs
      obtain ⟨r, hexec, hr⟩ := h.exec he hs (fun t ht => by cases ht; simp [ends]) (by omega)
      obtain ⟨-, hrest'⟩ := tokens_cons hr
      have hlen := congrArg List.length hs
      rw [List.length_append, List.length_cons, ← hrest'] at hlen
      obtain ⟨r', hright, hr'⟩ := h.pipe hp hrest' hrest (by omega)
      refine ⟨r', ?_, hr'⟩
      simp only [hexec, bind, Except.bind,
        if_pos (peek_bar.2 (by rw [hr]; rfl) : peek r ['|'] = true), gettoken_skip, hright]
      rfl

theorem Complete.parseexec (h : Complete fuel) {ts t s rest} (hexec : Exec ts t)
    (hs : tokens s = ts ++ rest) (hrest : Follow ends rest)
    (hfuel : 4 * (tokens s).length + 2 ≤ fuel + 1) :
    ∃ r, parseexec (fuel + 1) s = .ok (t, r) ∧ tokens r = rest := by
  rw [Bash.parseexec]
  cases hexec with
  | block ops hl =>
      rw [if_pos (peek_lparen.2 (by rw [hs]; rfl))]
      refine h.block hl ?_ hrest (by rw [tokens_skip]; omega)
      rw [tokens_skip, hs]
      simp
  | simple ops items hlen =>
      rw [List.append_assoc] at hs
      have hpeek : ¬peek s ['('] = true := by
        rw [peek_lparen, hs]
        intro hhead
        cases ops with
        | cons o ops => cases hop : o.1 <;> simp [redirTokens, hop, RedirOp.tok] at hhead
        | nil =>
            cases items with
            | cons i items => simp [redirTokens, argTokens] at hhead
            | nil => simpa [ends] using hrest _ hhead
      have hle := tokens_length s
      have hlen' := congrArg List.length hs
      have hops := redirTokens_length ops
      rw [List.length_append] at hlen'
      obtain ⟨r, hredirs, hr⟩ := parseredirs_complete ops (s.length + 1) (skip s) _
        ((tokens_skip s).trans hs) (not_redirects_args hrest items) (by omega)
      have hle' := tokens_length r
      have hlen'' := congrArg List.length hr
      have hitems := argTokens_length items
      rw [List.length_append] at hlen''
      obtain ⟨r', hargs, hr'⟩ := parseargs_complete items (r.length + 1) 0 r rest hr hrest
        (by omega) (by omega)
      refine ⟨r', ?_, hr'⟩
      rw [if_neg hpeek]
      simp only [hredirs, bind, Except.bind, hargs]
      rfl

theorem Complete.parseblock (h : Complete fuel) {ts t s rest ops} (hline : Line ts t)
    (hs : tokens s = .lparen :: (ts ++ .rparen :: (redirTokens ops ++ rest)))
    (hrest : Follow ends rest) (hfuel : 4 * (tokens s).length + 1 ≤ fuel + 1) :
    ∃ r, parseblock (fuel + 1) s = .ok (redircmd t (redirsOf ops), r) ∧ tokens r = rest := by
  rw [Bash.parseblock, if_pos (peek_lparen.2 (by rw [hs]; rfl)), gettoken_skip]
  obtain ⟨-, hin⟩ := tokens_cons hs
  rw [hs, List.length_cons, ← hin] at hfuel
  obtain ⟨r, hparse, hr⟩ := h.line hline hin (fun t ht => by cases ht; simp) (by omega)
  obtain ⟨-, hout⟩ := tokens_cons hr
  have hle := tokens_length (gettoken r).2
  have hlen := congrArg List.length hout
  have hops := redirTokens_length ops
  rw [List.length_append] at hlen
  obtain ⟨r', hredirs, hr'⟩ := parseredirs_complete ops ((gettoken r).2.length + 1) _ rest hout
    (hrest.not_redirects tok_not_mem_ends) (by omega)
  refine ⟨r', ?_, hr'⟩
  simp only [hparse, bind, Except.bind,
    if_pos (peek_rparen.2 (by rw [hr]; rfl) : peek r [')'] = true), gettoken_skip, hredirs]
  rfl

theorem complete (fuel : Nat) : Complete fuel := by
  induction fuel with
  | zero => constructor <;> (intros; omega)
  | succ fuel ih => exact ⟨ih.parseline, ih.parsepipe, ih.parseexec, ih.parseblock⟩

/-! ## Words -/

/-- The words of a tree. -/
def Tree.words {W : Type} : Tree W → List W
  | .exec argv => argv
  | .redir cmd file _ _ => cmd.words ++ [file]
  | .pipe left right => left.words ++ right.words
  | .list left right => left.words ++ right.words
  | .back cmd => cmd.words

theorem words_redircmd {W : Type} (t : Tree W) (rs : List (Redir W)) :
    (redircmd t rs).words = t.words ++ rs.map Redir.file := by
  induction rs generalizing t with
  | nil => simp [redircmd]
  | cons r rs ih =>
      have htail := ih (.redir t r.file r.mode r.fd)
      simp only [redircmd, List.foldl_cons] at htail ⊢
      rw [htail]
      simp [Tree.words]

theorem words_backs {W : Type} (n : Nat) (t : Tree W) : (backs n t).words = t.words := by
  induction n generalizing t with
  | zero => rfl
  | succ n ih => exact ih (.back t)

theorem mem_redirs {ops : List (RedirOp × Word)} {w : Word}
    (h : w ∈ (redirsOf ops).map Redir.file) : .word w ∈ redirTokens ops := by
  simp only [redirsOf, List.map_map, List.mem_map, Function.comp] at h
  obtain ⟨⟨op, v⟩, ho, rfl⟩ := h
  refine List.mem_flatMap.2 ⟨_, ho, ?_⟩
  cases op <;> simp [RedirOp.redir]

mutual

/-- The words of a tree are among the tokens that derive it. -/
theorem Line.words {ts : List (Tok Word)} {t : Tree Word} :
    Line ts t → ∀ w ∈ t.words, .word w ∈ ts
  | .last n hp, w, hw => by
      rw [words_backs] at hw
      exact List.mem_append_left _ (hp.words w hw)
  | .seq n hp hl, w, hw => by
      rw [Tree.words, words_backs, List.mem_append] at hw
      rcases hw with hw | hw
      · exact List.mem_append_left _ (hp.words w hw)
      · exact List.mem_append_right _ (List.mem_append_right _ (.tail _ (hl.words w hw)))

theorem Pipe.words {ts : List (Tok Word)} {t : Tree Word} :
    Pipe ts t → ∀ w ∈ t.words, .word w ∈ ts
  | .last he, w, hw => he.words w hw
  | .more he hp, w, hw => by
      rw [Tree.words, List.mem_append] at hw
      rcases hw with hw | hw
      · exact List.mem_append_left _ (he.words w hw)
      · exact List.mem_append_right _ (.tail _ (hp.words w hw))

theorem Exec.words {ts : List (Tok Word)} {t : Tree Word} :
    Exec ts t → ∀ w ∈ t.words, .word w ∈ ts
  | .block ops hl, w, hw => by
      rw [words_redircmd, List.mem_append] at hw
      rcases hw with hw | hw
      · exact .tail _ (List.mem_append_left _ (hl.words w hw))
      · exact .tail _ (List.mem_append_right _ (.tail _ (mem_redirs hw)))
  | .simple ops items hlen, w, hw => by
      rw [words_redircmd, Tree.words, List.map_append, List.mem_append, List.mem_append] at hw
      rcases hw with hw | hw | hw
      · obtain ⟨i, hi, rfl⟩ := List.mem_map.1 hw
        exact List.mem_append_right _ (List.mem_flatMap.2 ⟨i, hi, List.mem_cons_self⟩)
      · exact List.mem_append_left _ (mem_redirs hw)
      · refine List.mem_append_right _ ?_
        obtain ⟨o, ho, hred⟩ := List.mem_flatMap.1 (mem_redirs hw)
        obtain ⟨i, hi, hoi⟩ := List.mem_flatMap.1 ho
        exact List.mem_flatMap.2 ⟨i, hi, .tail _ (List.mem_flatMap.2 ⟨o, hoi, hred⟩)⟩

end

/-- A word of the line `line`: the part from `q` on, up to its first character that is none of a
word, where `eq` is. -/
def WordOf (line : List Char) (w : Word) (part : List Char) : Prop :=
  part <:+ line ∧ w.q = part.length ∧ w.eq = (part.dropWhile wordChar).length

theorem wordOf_tokens {line : List Char} {w : Word} (hs : s <:+ line) (hw : .word w ∈ tokens s) :
    ∃ part, WordOf line w part := by
  induction hn : s.length using Nat.strongRecOn generalizing s with
  | ind n ih =>
      subst hn
      have hskip : skip s <:+ line := (List.dropWhile_suffix _).trans hs
      -- the rest behind the first token
      have hrest : ∀ {t : Tok Word}, (gettoken s).1 = some t → t ≠ .word w →
          (gettoken s).2 <:+ line → ∃ part, WordOf line w part := by
        intro t ht hne hsuffix
        rw [tokens_some ht] at hw
        rcases List.mem_cons.1 hw with heq | hin
        · exact absurd heq.symm hne
        · exact ih _ (gettoken_length ht) hsuffix hin rfl
      rcases gettoken_cases s with
        ⟨-, hg⟩ | ⟨c, r, t, hs', -, -, hne, hg | ⟨r', rfl, hg⟩⟩ | ⟨c, r, hs', -, hg⟩
      · rw [tokens_none (by rw [hg])] at hw
        cases hw
      · refine hrest (by rw [hg]) (hne w) ?_
        rw [hg]
        rw [hs'] at hskip
        exact (List.dropWhile_suffix _).trans ((List.suffix_cons _ _).trans hskip)
      · refine hrest (by rw [hg]) (hne w) ?_
        rw [hg]
        rw [hs'] at hskip
        exact (List.dropWhile_suffix _).trans
          ((List.suffix_cons _ _).trans ((List.suffix_cons _ _).trans hskip))
      · rw [hs'] at hskip
        by_cases hfirst : (⟨(c :: r).length, ((c :: r).dropWhile wordChar).length⟩ : Word) = w
        · subst hfirst
          exact ⟨c :: r, hskip, rfl, rfl⟩
        · refine hrest (by rw [hg]) (fun heq => hfirst (Tok.word.inj heq)) ?_
          rw [hg]
          exact (List.dropWhile_suffix _).trans ((List.dropWhile_suffix _).trans hskip)

/-- Where a word stands, and that no character of a word follows it. -/
theorem WordOf.chars {buf : List Char} {w : Word} {part : List Char} (h : WordOf buf w part) :
    (∀ j < (part.takeWhile wordChar).length,
      buf[buf.length - w.q + j]? = (part.takeWhile wordChar)[j]?) ∧
    buf.length - w.eq = buf.length - w.q + (part.takeWhile wordChar).length ∧
    ∀ c, buf[buf.length - w.eq]? = some c → wordChar c = false := by
  obtain ⟨⟨pre, hpre⟩, hq, heq⟩ := h
  have hsplit := List.takeWhile_append_dropWhile (p := wordChar) (l := part)
  have hline : buf = pre ++ (part.takeWhile wordChar ++ part.dropWhile wordChar) := by
    rw [hsplit, hpre]
  have hn := congrArg List.length hline
  have hm := congrArg List.length hsplit
  rw [List.length_append] at hm
  rw [List.length_append, List.length_append] at hn
  have hstart : buf.length - w.q = pre.length := by omega
  have hend : buf.length - w.eq = pre.length + (part.takeWhile wordChar).length := by omega
  rw [hend, hstart]
  refine ⟨fun j hj => ?_, rfl, fun c hc => ?_⟩
  · rw [hline, List.getElem?_append_right (by omega), Nat.add_sub_cancel_left,
      List.getElem?_append_left hj]
  · rw [hline, List.getElem?_append_right (by omega), Nat.add_sub_cancel_left,
      List.getElem?_append_right (Nat.le_refl _), Nat.sub_self] at hc
    cases hd : part.dropWhile wordChar with
    | nil => simp [hd] at hc
    | cons d r =>
        have hnot := List.head?_dropWhile_not wordChar part
        rw [hd] at hnot hc
        simp only [List.getElem?_cons_zero, Option.some.injEq] at hc
        subst hc
        simpa using hnot

/-- Put a NUL behind each of the words. -/
def nulBehind (n : Nat) (ws : List Word) (buf : List Char) : List Char :=
  ws.foldl (fun buf w => buf.set (n - w.eq) '\x00') buf

theorem nulterminate_eq (n : Nat) (t : Tree Word) (buf : List Char) :
    nulterminate n t buf = nulBehind n t.words buf := by
  induction t generalizing buf with
  | exec argv => rfl
  | redir cmd file mode fd ih =>
      rw [nulterminate, ih, nulBehind, nulBehind, Tree.words, List.foldl_append]
      rfl
  | pipe left right ihl ihr =>
      rw [nulterminate, ihr, ihl, nulBehind, nulBehind, nulBehind, Tree.words, List.foldl_append]
  | list left right ihl ihr =>
      rw [nulterminate, ihr, ihl, nulBehind, nulBehind, nulBehind, Tree.words, List.foldl_append]
  | back cmd ih => rw [nulterminate, ih, Tree.words]

theorem nulBehind_get (n : Nat) (ws : List Word) (buf : List Char) {i : Nat}
    (hi : i < buf.length) : (nulBehind n ws buf)[i]? =
      if ∃ w ∈ ws, n - w.eq = i then some '\x00' else buf[i]? := by
  induction ws generalizing buf with
  | nil => simp [nulBehind]
  | cons w ws ih =>
      have htail := ih (buf.set (n - w.eq) '\x00') (by rwa [List.length_set])
      rw [nulBehind, List.foldl_cons]
      rw [nulBehind] at htail
      rw [htail, List.getElem?_set]
      by_cases hws : ∃ v ∈ ws, n - v.eq = i
      · obtain ⟨v, hv, heq⟩ := hws
        rw [if_pos ⟨v, hv, heq⟩, if_pos ⟨v, List.mem_cons_of_mem _ hv, heq⟩]
      · rw [if_neg hws]
        by_cases hw : n - w.eq = i
        · rw [if_pos hw, if_pos (by omega), if_pos ⟨w, List.mem_cons_self, hw⟩]
        · rw [if_neg hw, if_neg]
          rintro ⟨v, hv, heq⟩
          rcases List.mem_cons.1 hv with rfl | hv
          · exact hw heq
          · exact hws ⟨v, hv, heq⟩

/-- The C string at `p` in a buffer. -/
def stringAt (buf : List Char) (p : Nat) : List Char := (buf.drop p).takeWhile (· ≠ '\x00')

theorem stringAt_eq {buf text : List Char} {p : Nat} (htext : '\x00' ∉ text)
    (hget : ∀ j < text.length, buf[p + j]? = text[j]?)
    (hend : buf[p + text.length]? = some '\x00') : stringAt buf p = text := by
  rw [stringAt]
  induction text generalizing p with
  | nil =>
      rw [List.length_nil, Nat.add_zero] at hend
      obtain ⟨r, hr⟩ := List.head?_eq_some_iff.1 (by rw [List.head?_drop]; exact hend)
      rw [hr]
      rfl
  | cons c text ih =>
      have hc : buf[p]? = some c := hget 0 (Nat.zero_lt_succ _)
      obtain ⟨r, hr⟩ := List.head?_eq_some_iff.1 (by rw [List.head?_drop]; exact hc)
      have htail : r = buf.drop (p + 1) := by
        rw [← List.tail_drop, hr]
        rfl
      have hne : c ≠ '\x00' := fun h => htext (h ▸ List.mem_cons_self)
      rw [hr, List.takeWhile_cons, if_pos (by simpa using hne), htail]
      rw [ih (fun h => htext (List.mem_cons_of_mem _ h))]
      · intro j hj
        have := hget (j + 1) (Nat.succ_lt_succ hj)
        rwa [show p + (j + 1) = p + 1 + j by omega, List.getElem?_cons_succ] at this
      · rwa [List.length_cons, show p + (text.length + 1) = p + 1 + text.length by omega] at hend

/-- The words of a tree can be read from the line after `nulterminate`. -/
theorem stringAt_nulterminate {line : CString} {t : Tree Word}
    (hwords : ∀ w ∈ t.words, ∃ part, WordOf line.1 w part) {w : Word} {part : List Char}
    (hw : w ∈ t.words) (hpart : WordOf line.1 w part) :
    stringAt (nulterminate line.1.length t (line.1 ++ ['\x00'])) (line.1.length - w.q) =
      part.takeWhile wordChar := by
  obtain ⟨hchars, hend, -⟩ := hpart.chars
  have hsub : part.takeWhile wordChar ⊆ line.1 :=
    fun c hc => hpart.1.subset ((List.takeWhile_prefix _).subset hc)
  have hle : line.1.length - w.eq < (line.1 ++ ['\x00']).length := by
    simp only [List.length_append, List.length_singleton]
    omega
  refine stringAt_eq (fun h => line.2 (hsub h)) (fun j hj => ?_) ?_
  · rw [nulterminate_eq, nulBehind_get _ _ _ (by omega), if_neg ?_, List.getElem?_append_left,
      hchars j hj]
    · by_contra hlt
      have hnone := hchars j hj
      rw [List.getElem?_eq_none (by omega), List.getElem?_eq_getElem hj] at hnone
      cases hnone
    · -- the place behind another word would hold a character of this one
      rintro ⟨v, hv, hpos⟩
      obtain ⟨part', hpart'⟩ := hwords v hv
      have hc := hchars j hj
      rw [List.getElem?_eq_getElem hj, ← hpos] at hc
      have hnot := hpart'.chars.2.2 _ hc
      have hyes : wordChar (part.takeWhile wordChar)[j] = true :=
        List.all_eq_true.1 List.all_takeWhile _ (List.getElem_mem hj)
      rw [hnot] at hyes
      cases hyes
  · rw [← hend, nulterminate_eq, nulBehind_get _ _ _ hle, if_pos ⟨w, hw, rfl⟩]

/-! ## `parsecmd` -/

/-- `parsecmd` returns a tree if and only if the tokens of the line derive it, and ends in a panic
otherwise; each word of the tree is then a C string in the line, the word that `gettoken` found. -/
theorem parsecmd_iff (line : CString) :
    (∀ t, (∃ buf, parsecmd line = .ok (t, buf)) ↔ Line (tokens line.1) t) ∧
    (∀ e, parsecmd line = .error e → e ≠ .fuel) ∧
    ∀ t buf, parsecmd line = .ok (t, buf) → ∀ w ∈ t.words, ∃ part, WordOf line.1 w part ∧
      stringAt buf (line.1.length - w.q) = part.takeWhile wordChar := by
  have hfuel : 4 * (tokens line.1).length + 4 ≤ 4 * line.1.length + 4 := by
    have := tokens_length line.1
    omega
  have hsound := (sound (4 * line.1.length + 4)).line line.1 hfuel
  have hderives : ∀ t buf, parsecmd line = .ok (t, buf) → Line (tokens line.1) t ∧
      buf = nulterminate line.1.length t (line.1 ++ ['\x00']) := by
    intro t buf h
    rw [parsecmd] at h
    cases hx : parseline (4 * line.1.length + 4) line.1 with
    | error e =>
        rw [hx] at h
        cases h
    | ok y =>
        obtain ⟨u, r⟩ := y
        rw [hx] at h hsound
        simp only [bind, Except.bind] at h
        split at h
        · rename_i hend
          obtain ⟨ts, hts, hline⟩ := hsound
          cases h
          rw [tokens_eq_nil.2 hend, List.append_nil] at hts
          exact ⟨hts ▸ hline, rfl⟩
        · cases h
  refine ⟨fun t => ⟨?_, fun h => ?_⟩, fun e he => ?_, fun t buf h w hw => ?_⟩
  · rintro ⟨buf, h⟩
    exact (hderives t buf h).1
  · obtain ⟨r, hparse, hr⟩ := (complete (4 * line.1.length + 4)).line h
      (List.append_nil _).symm nofun hfuel
    refine ⟨nulterminate line.1.length t (line.1 ++ ['\x00']), ?_⟩
    rw [parsecmd, hparse]
    simp only [bind, Except.bind]
    rw [if_pos (tokens_eq_nil.1 hr)]
    rfl
  · rw [parsecmd] at he
    cases hx : parseline (4 * line.1.length + 4) line.1 with
    | error e' =>
        rw [hx] at he hsound
        cases he
        exact hsound
    | ok y =>
        rw [hx] at he
        simp only [bind, Except.bind] at he
        split at he
        · cases he
        · cases he
          exact nofun
  · obtain ⟨hline, rfl⟩ := hderives t buf h
    have hwords : ∀ v ∈ t.words, ∃ part, WordOf line.1 v part := fun v hv =>
      wordOf_tokens List.suffix_rfl (hline.words v hv)
    obtain ⟨part, hpart⟩ := hwords w hw
    exact ⟨part, hpart, stringAt_nulterminate hwords hw hpart⟩

end Xv6.User.Bash

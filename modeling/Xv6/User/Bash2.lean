import Mathlib.Tactic.SplitIfs
import Mathlib.Tactic.Ring

/-!
# The shell `bash2`: parser and executor

`shell_lib/parser.c`, `execute_command` of `shell_lib/executor.c` and the body of `shell_loop` of
`user/shells/bash2.c`, for one line.  The parser makes a tree of `command_t` nodes: simple commands,
linked by `next` in a pipeline, and nodes for `;`, `&&` and `||`, which have no arguments.
`execute_command` knows only of simple commands, and of a pipeline it runs the first one.

Memory is not short, a process can be forked, and every program is there.  A function goes `wrong`
where the code reads or writes through a null pointer or behind the end of an array.

## Main results

* `executes_iff`: a line is run as it says if and only if it is one simple command that can be
  started.
-/

namespace Xv6.User.Bash2

/-! ## Tokens -/

/-- A token. -/
abbrev Token := List Char

instance : LawfulBEq Token := inferInstance

/-- What goes wrong. -/
inductive Wrong where
  /-- `cmd->args` is null. -/
  | nullArgs
  /-- `tokens[*pos]` is null. -/
  | nullToken
  /-- `current` is null. -/
  | nullCommand
  /-- An array is too small. -/
  | overflow
  deriving DecidableEq

/-- `isspace`. -/
def isspace (c : Char) : Bool := c ∈ ['\t', '\n', '\x0b', '\x0c', '\r', ' ']

/-- The characters that end a word. -/
def isOperator (c : Char) : Bool := c ∈ [';', '&', '|', '<', '>', '(', ')']

/-- The operator at the head of the input. -/
def operatorToken : List Char → Token × List Char
  | ';' :: ';' :: p => ([';', ';'], p)
  | '&' :: '&' :: p => (['&', '&'], p)
  | '|' :: '|' :: p => (['|', '|'], p)
  | '>' :: '>' :: p => (['>', '>'], p)
  | c :: p => ([c], p)
  | [] => ([], [])

/-- A word without quotes.  The `)` of `*)` belongs to it. -/
def plainWord : List Char → Token × List Char
  | '*' :: ')' :: p => (['*', ')'], p)
  | c :: p =>
      if isspace c ∨ isOperator c then ([], c :: p) else (c :: (plainWord p).1, (plainWord p).2)
  | [] => ([], [])

/-- The word at the head of the input. -/
def wordToken : List Char → Token × List Char
  | [] => ([], [])
  | c :: p =>
      if c = '"' ∨ c = '\'' then (p.takeWhile (· ≠ c), (p.dropWhile (· ≠ c)).tail)
      else plainWord (c :: p)

/-- The loop of `tokenize`. -/
def tokenizeLoop : Nat → List Char → Except Wrong (List Token)
  | 0, _ => .ok []
  | fuel + 1, input =>
      match input.dropWhile isspace with
      | [] => .ok []
      | c :: p =>
          let (token, p) := if isOperator c then operatorToken (c :: p) else wordToken (c :: p)
          if 1024 ≤ token.length then .error .overflow
          else (tokenizeLoop fuel p).map (token :: ·)

/-- `tokenize`: the array has 256 places, the last of them for the null pointer. -/
def tokenize (input : List Char) : Except Wrong (List Token) := do
  let tokens ← tokenizeLoop (input.length + 1) input
  if 256 ≤ tokens.length then .error .overflow else return tokens

/-! ## The parser -/

/-- `command_type_t`. -/
inductive CommandType where
  | simple
  | «if»
  | while
  | for
  | case
  | subshell
  | and
  | or
  | sequence
  deriving DecidableEq

/-- The fields of `command_t` that are no nodes. -/
structure Fields where
  type : CommandType
  command : Option Token
  args : Option (List Token)
  inputFile : Option Token
  outputFile : Option Token
  appendOutput : Bool
  background : Bool

/-- `command_t *`. -/
inductive Command where
  | null
  | node (fields : Fields) (next thenBranch elseBranch : Command)

/-- A node that `memset` has cleared, with its type. -/
def Fields.cleared (type : CommandType) : Fields := ⟨type, none, none, none, none, false, false⟩

/-- The tokens at which `parse_simple` ends. -/
def stopTokens : List Token :=
  [['i', 'f'], ['w', 'h', 'i', 'l', 'e'], ['f', 'o', 'r'], ['t', 'h', 'e', 'n'],
    ['e', 'l', 's', 'e'], ['f', 'i'], ['d', 'o'], ['d', 'o', 'n', 'e'], [';'], ['|'], ['&', '&'],
    ['|', '|']]

/-- The loop of `parse_simple`: the node, its arguments, and the tokens that are left. -/
def simpleLoop (cmd : Fields) (args : List Token) : List Token → Fields × List Token × List Token
  | [] => (cmd, args, [])
  | t :: ts =>
      if t ∈ stopTokens then (cmd, args, t :: ts)
      else if t = ['&'] then simpleLoop { cmd with background := true } args ts
      else if t = ['<'] then
        match ts with
        | [] => (cmd, args, [])
        | file :: ts => simpleLoop { cmd with inputFile := some file } args ts
      else if t = ['>'] ∨ t = ['>', '>'] then
        match ts with
        | [] => (cmd, args, [])
        | file :: ts =>
            simpleLoop { cmd with outputFile := some file, appendOutput := t = ['>', '>'] } args ts
      else simpleLoop cmd (args ++ [t]) ts

/-- The loop of `parse_subshell`: the text up to the closing parenthesis, if there is one. -/
def subshellLoop : Nat → List Char → List Token → Option (List Char × List Token)
  | _, _, [] => none
  | nested, buffer, t :: ts =>
      if t = ['('] then subshellLoop (nested + 1) (buffer ++ t ++ [' ']) ts
      else if t = [')'] ∧ nested = 1 then some (buffer, ts)
      else
        subshellLoop (if t = [')'] then nested - 1 else nested) (buffer ++ t ++ [' ']) ts

/-- The redirections behind a subshell. -/
def redirections (cmd : Fields) : List Token → Fields × List Token
  | [] => (cmd, [])
  | [t] => if t = ['<'] ∨ t = ['>'] ∨ t = ['>', '>'] then (cmd, []) else (cmd, [t])
  | t :: file :: ts =>
      if t = ['<'] then redirections { cmd with inputFile := some file } ts
      else if t = ['>'] ∨ t = ['>', '>'] then
        redirections { cmd with outputFile := some file, appendOutput := t = ['>', '>'] } ts
      else (cmd, t :: file :: ts)

/-- `parse_subshell`, behind the opening parenthesis. -/
def parseSubshell (tokens : List Token) : Except Wrong (Command × List Token) :=
  match subshellLoop 1 [] tokens with
  | none => .ok (.null, [])
  | some (buffer, tokens) =>
      if 4096 ≤ buffer.length then .error .overflow
      else
        let (cmd, tokens) := redirections { Fields.cleared .simple with
          args := some [['s', 'h'], ['-', 'c'], buffer], command := some buffer } tokens
        .ok (.node cmd .null .null .null, tokens)

/-- `parse_simple`: the array of arguments has 64 places, one of them for the null pointer. -/
def parseSimple : List Token → Except Wrong (Command × List Token)
  | [] => .error .nullToken
  | t :: ts =>
      if t = ['('] then parseSubshell ts
      else
        let (cmd, args, tokens) := simpleLoop (.cleared .simple) [] (t :: ts)
        if 64 ≤ args.length then .error .overflow
        else .ok (.node { cmd with args := some args, command := args.head? } .null .null .null,
          tokens)

/-- The loop of `parse_pipeline`, with `current` and what was parsed for it. -/
def pipelineLoop : Nat → Command → List Token → Except Wrong (Command × List Token)
  | 0, current, tokens => .ok (current, tokens)
  | fuel + 1, current, tokens =>
      if tokens.head? = some ['|'] then
        match current with
        | .null => .error .nullCommand
        | .node cmd _ th el => do
            let (next, tokens) ← parseSimple tokens.tail
            let (next, tokens) ← pipelineLoop fuel next tokens
            return (.node cmd next th el, tokens)
      else .ok (current, tokens)

/-- `parse_pipeline`. -/
def parsePipeline (tokens : List Token) : Except Wrong (Command × List Token) := do
  let (head, tokens) ← parseSimple tokens
  pipelineLoop (tokens.length + 1) head tokens

/-- `parse_command`. -/
def parseCommand : Nat → List Token → Except Wrong (Command × List Token)
  | 0, tokens => .ok (.null, tokens)
  | _, [] => .ok (.null, [])
  | fuel + 1, t :: ts => do
      let (cmd, tokens) ← parsePipeline (t :: ts)
      let branch (type : CommandType) : Except Wrong (Command × List Token) := do
        let (rest, tokens) ← parseCommand fuel tokens.tail
        return (.node (.cleared type) .null cmd rest, tokens)
      if tokens.head? = some [';'] then branch .sequence
      else if tokens.head? = some ['&', '&'] then branch .and
      else if tokens.head? = some ['|', '|'] then branch .or
      else return (cmd, tokens)

/-- `parse_input`: tokens that are left are ignored. -/
def parseInput (input : List Char) : Except Wrong Command := do
  let tokens ← tokenize input
  let (cmd, _) ← parseCommand (tokens.length + 1) tokens
  return cmd

/-! ## The executor -/

/-- A command that was run, and whether it was connected with its neighbours. -/
structure Run where
  args : List Token
  fromPipe : Bool
  toPipe : Bool
  deriving DecidableEq

/-- What `register_builtin_commands` registers. -/
def builtins : List Token :=
  ["help", "cd", "exit", "kill", "export", "unset", "env", "pwd"].map String.toList

/-- The places of `total_path`. -/
abbrev TOTAL_PATH : Nat := 256

/-- The places for arguments in `sys_exec`, the last of them for the null pointer. -/
abbrev MAXARG : Nat := 32

/-- The bytes that `exec` pushes: the strings, each rounded up to a word, and the words of `ustack`.
-/
def pushed (args : List Token) : Nat :=
  (args.map fun a => 8 * (a.length / 8 + 1)).sum + 8 * (args.length + 4)

/-- `exec` does not refuse the arguments: `sys_exec` has places for them, and the stack page too. -/
def execAccepts (args : List Token) : Bool := args.length < MAXARG ∧ pushed args ≤ 4096

/-- `execute_command`, after `runs`.  A built-in command is called with its arguments.  For any
other the child process puts `path`, the value of PATH, in front of the name. -/
def executeCommand (path : List Char) (runs : List Run) : Command → Except Wrong (List Run)
  | .null => .ok runs
  | .node cmd _ _ _ =>
      match cmd.args with
      | none => .error .nullArgs
      | some [] => .ok runs
      | some (arg :: args) =>
          if arg ∈ builtins then .ok (runs ++ [⟨arg :: args, false, false⟩])
          else if TOTAL_PATH ≤ path.length + arg.length then .error .overflow
          else if execAccepts (arg :: args) then .ok (runs ++ [⟨arg :: args, false, false⟩])
          else .ok runs

/-- The types that `shell_loop` leaves to `execute_command` at once. -/
def compound : List CommandType :=
  [.if, .while, .for, .case, .subshell, .and, .or, .sequence]

/-- The body of `shell_loop`, for a line that is not empty.  It runs `exit` itself. -/
def shellLoop (path input : List Char) : Except Wrong (List Run) := do
  match ← parseInput input with
  | .null => return []
  | .node cmd next th el =>
      if cmd.type ∈ compound then executeCommand path [] (.node cmd next th el)
      else
        match cmd.command with
        | none => return []
        | some command =>
            if command = ['e', 'x', 'i', 't'] then return [⟨cmd.args.getD [], false, false⟩]
            else executeCommand path [] (.node cmd next th el)

/-! ## What a line says -/

/-- A pipeline: simple commands, each with its arguments. -/
structure Pipeline where
  first : List Token
  rest : List (List Token)

/-- A line: pipelines with `;`, `&&` or `||` between them, and perhaps a `;` at the end. -/
inductive Line where
  | last (p : Pipeline) (semicolon : Bool)
  | seq (p : Pipeline) (rest : Line)
  | and (p : Pipeline) (rest : Line)
  | or (p : Pipeline) (rest : Line)

/-- A token that is neither an operator nor a keyword. -/
def Word (t : Token) : Prop :=
  t ∉ stopTokens ∧ t ∉ [['&'], ['<'], ['>'], ['>', '>'], ['('], [')'], [';', ';']]

instance (t : Token) : Decidable (Word t) := inferInstanceAs (Decidable (_ ∧ _))

/-- A simple command: a name and its arguments. -/
def Simple (c : List Token) : Prop := c ≠ [] ∧ ∀ t ∈ c, Word t

instance (c : List Token) : Decidable (Simple c) := inferInstanceAs (Decidable (_ ∧ _))

namespace Pipeline

/-- Its commands. -/
def commands (p : Pipeline) : List (List Token) := p.first :: p.rest

/-- Its tokens. -/
def tokens (p : Pipeline) : List Token := p.first ++ p.rest.flatMap fun c => ['|'] :: c

/-- The runs of commands that are connected with each other. -/
def runsFrom : Bool → List (List Token) → List Run
  | _, [] => []
  | piped, [c] => [⟨c, piped, false⟩]
  | piped, c :: d :: cs => ⟨c, piped, true⟩ :: runsFrom true (d :: cs)

/-- Its commands, run. -/
def runs (p : Pipeline) : List Run := runsFrom false p.commands

end Pipeline

namespace Line

/-- Its tokens. -/
def tokens : Line → List Token
  | last p semicolon => p.tokens ++ if semicolon then [[';']] else []
  | seq p rest => p.tokens ++ [';'] :: rest.tokens
  | and p rest => p.tokens ++ ['&', '&'] :: rest.tokens
  | or p rest => p.tokens ++ ['|', '|'] :: rest.tokens

/-- Its simple commands. -/
def commands : Line → List (List Token)
  | last p _ => p.commands
  | seq p rest => p.commands ++ rest.commands
  | and p rest => p.commands ++ rest.commands
  | or p rest => p.commands ++ rest.commands

/-- What it says should run, after `runs`; `status` is the status of what ran last. -/
def meaning (status : List Run → Bool) (runs : List Run) : Line → List Run
  | last p _ => runs ++ p.runs
  | seq p rest => rest.meaning status (runs ++ p.runs)
  | and p rest =>
      if status (runs ++ p.runs) then rest.meaning status (runs ++ p.runs) else runs ++ p.runs
  | or p rest =>
      if status (runs ++ p.runs) then runs ++ p.runs else rest.meaning status (runs ++ p.runs)

end Line

/-- The shell runs the line as it says, whatever the status of the commands is. -/
def Executes (path input : List Char) (line : Line) : Prop :=
  ∀ status : List Run → Bool, shellLoop path input = .ok (line.meaning status [])

/-- The command is built in, or its path fits its array and `exec` takes its arguments. -/
def Starts (path : List Char) (c : List Token) : Prop :=
  c.headD [] ∈ builtins ∨ path.length + (c.headD []).length < TOTAL_PATH ∧ execAccepts c = true

instance (path : List Char) (c : List Token) : Decidable (Starts path c) :=
  inferInstanceAs (Decidable (_ ∨ _))

/-! ## Parsing -/

variable {c : List Token} {ts : List Token} {p : Pipeline}

/-- What may follow a simple command of a line. -/
def Ends (ts : List Token) : Prop := ∀ t, ts.head? = some t → t ∈ stopTokens

theorem simpleLoop_words (cmd : Fields) (hc : ∀ t ∈ c, Word t) (hts : Ends ts) (args : List Token) :
    simpleLoop cmd args (c ++ ts) = (cmd, args ++ c, ts) := by
  induction c generalizing args with
  | nil =>
      cases ts with
      | nil => simp [simpleLoop]
      | cons t ts =>
          rw [List.nil_append, simpleLoop.eq_def, List.append_nil]
          dsimp only
          rw [if_pos (hts t rfl)]
  | cons t c ih =>
      obtain ⟨hstop, hop⟩ := hc t List.mem_cons_self
      simp only [List.mem_cons, List.not_mem_nil, or_false, not_or] at hop
      rw [List.cons_append, simpleLoop.eq_def]
      dsimp only
      rw [if_neg hstop, if_neg hop.1, if_neg hop.2.1, if_neg (by simp [hop.2.2.1, hop.2.2.2.1]),
        ih (fun u hu => hc u (List.mem_cons_of_mem _ hu))]
      simp

/-- The node of a simple command. -/
def simpleNode (c : List Token) (next : Command) : Command :=
  .node { Fields.cleared .simple with args := some c, command := c.head? } next .null .null

theorem parseSimple_words (hc : Simple c) (hts : Ends ts) : parseSimple (c ++ ts) =
    if 64 ≤ c.length then .error .overflow else .ok (simpleNode c .null, ts) := by
  obtain ⟨hne, hwords⟩ := hc
  have hloop := simpleLoop_words (.cleared .simple) hwords hts []
  cases c with
  | nil => exact absurd rfl hne
  | cons t c =>
      have hop := (hwords t List.mem_cons_self).2
      simp only [List.mem_cons, List.not_mem_nil, or_false, not_or] at hop
      rw [List.cons_append] at hloop ⊢
      rw [parseSimple, if_neg hop.2.2.2.2.1, hloop]
      rfl

/-- The nodes of a pipeline. -/
def pipelineNode : List Token → List (List Token) → Command
  | c, [] => simpleNode c .null
  | c, d :: cs => simpleNode c (pipelineNode d cs)

theorem ends_pipe (hts : Ends ts) (cs : List (List Token)) :
    Ends (cs.flatMap (fun c => ['|'] :: c) ++ ts) := by
  cases cs with
  | nil => exact hts
  | cons c cs =>
      intro t ht
      simp only [List.flatMap_cons, List.cons_append, List.head?_cons, Option.some.injEq] at ht
      subst ht
      decide

/-- What follows a pipeline of a line. -/
def PipeEnds (ts : List Token) : Prop := Ends ts ∧ ts.head? ≠ some ['|']

theorem pipelineLoop_commands (hts : PipeEnds ts) (cs : List (List Token)) :
    ∀ c fuel, cs.length < fuel → (∀ d ∈ cs, Simple d) →
      pipelineLoop fuel (simpleNode c .null) (cs.flatMap (fun c => ['|'] :: c) ++ ts) =
        if ∃ d ∈ cs, 64 ≤ d.length then .error .overflow else .ok (pipelineNode c cs, ts) := by
  induction cs with
  | nil =>
      intro c fuel hfuel _
      obtain ⟨fuel, rfl⟩ := Nat.exists_eq_succ_of_ne_zero (Nat.ne_of_gt hfuel)
      simp [pipelineLoop, hts.2, pipelineNode]
  | cons d cs ih =>
      intro c fuel hfuel hcs
      obtain ⟨fuel, rfl⟩ := Nat.exists_eq_succ_of_ne_zero (Nat.ne_of_gt (Nat.zero_lt_of_lt hfuel))
      have hd := hcs d List.mem_cons_self
      have hparse := parseSimple_words hd (ends_pipe hts.1 cs)
      simp only [List.flatMap_cons, List.cons_append, List.append_assoc, simpleNode] at hparse ⊢
      rw [pipelineLoop]
      simp only [List.head?_cons, if_true, List.tail_cons]
      by_cases hlong : 64 ≤ d.length
      · rw [if_pos hlong] at hparse
        rw [if_pos ⟨d, List.mem_cons_self, hlong⟩, hparse]
        rfl
      · rw [if_neg hlong] at hparse
        have hrest := ih d fuel (by simpa using hfuel) fun e he => hcs e (List.mem_cons_of_mem _ he)
        simp only [simpleNode] at hrest
        simp only [hparse, bind, Except.bind, hrest, List.mem_cons, exists_eq_or_imp, hlong,
          false_or]
        by_cases hex : ∃ e ∈ cs, 64 ≤ e.length
        · rw [if_pos hex, if_pos hex]
        · rw [if_neg hex, if_neg hex]
          rfl

theorem parsePipeline_commands (ts : List Token) (hp : ∀ c ∈ p.commands, Simple c)
    (hts : PipeEnds ts) :
    parsePipeline (p.tokens ++ ts) = if ∃ c ∈ p.commands, 64 ≤ c.length then .error .overflow
      else .ok (pipelineNode p.first p.rest, ts) := by
  have hfirst := parseSimple_words (hp p.first List.mem_cons_self) (ends_pipe hts.1 p.rest)
  rw [parsePipeline, Pipeline.tokens, List.append_assoc, hfirst]
  by_cases hlong : 64 ≤ p.first.length
  · simp only [Pipeline.commands, List.mem_cons, exists_eq_or_imp, hlong, true_or,
      if_true]
    rfl
  · have hlen : p.rest.length < (p.rest.flatMap (fun c => ['|'] :: c) ++ ts).length + 1 := by
      have : p.rest.length ≤ (p.rest.flatMap fun c => ['|'] :: c).length := by
        induction p.rest with
        | nil => simp
        | cons d cs ih =>
            simp only [List.flatMap_cons, List.length_append, List.length_cons]
            omega
      simp only [List.length_append]
      omega
    have hrest := pipelineLoop_commands hts p.rest p.first _ hlen fun d hd =>
      hp d (List.mem_cons_of_mem _ hd)
    simp only [Pipeline.commands, List.mem_cons, exists_eq_or_imp, hlong, false_or,
      bind, Except.bind]
    exact hrest

/-- The tree of a line. -/
def lineNode : Line → Command
  | .last p false => pipelineNode p.first p.rest
  | .last p true => .node (.cleared .sequence) .null (pipelineNode p.first p.rest) .null
  | .seq p rest => .node (.cleared .sequence) .null (pipelineNode p.first p.rest) (lineNode rest)
  | .and p rest => .node (.cleared .and) .null (pipelineNode p.first p.rest) (lineNode rest)
  | .or p rest => .node (.cleared .or) .null (pipelineNode p.first p.rest) (lineNode rest)

theorem tokens_ne_nil (hp : ∀ c ∈ p.commands, Simple c) : p.tokens ≠ [] := by
  have hfirst := (hp p.first List.mem_cons_self).1
  simp [Pipeline.tokens, hfirst]

/-- `parse_command` on a pipeline and an operator. -/
theorem parseCommand_operator (ts : List Token) {fuel : Nat} {op : Token}
    (hp : ∀ c ∈ p.commands, Simple c)
    {type : CommandType} (hop : (op, type) ∈
      [([';'], CommandType.sequence), (['&', '&'], .and), (['|', '|'], .or)]) :
    parseCommand (fuel + 1) (p.tokens ++ op :: ts) =
      if ∃ c ∈ p.commands, 64 ≤ c.length then .error .overflow
      else (parseCommand fuel ts).map fun r =>
        (.node (.cleared type) .null (pipelineNode p.first p.rest) r.1, r.2) := by
  have hends : PipeEnds (op :: ts) := by
    simp only [List.mem_cons, Prod.mk.injEq, List.not_mem_nil, or_false] at hop
    obtain ⟨rfl, -⟩ | ⟨rfl, -⟩ | ⟨rfl, -⟩ := hop <;>
      exact ⟨fun t ht => by cases ht; decide, by simp⟩
  have hpipe := parsePipeline_commands _ hp hends
  obtain ⟨t, ts', htokens⟩ := List.exists_cons_of_ne_nil (tokens_ne_nil hp)
  rw [htokens, List.cons_append] at hpipe ⊢
  rw [parseCommand, hpipe]
  by_cases hlong : ∃ c ∈ p.commands, 64 ≤ c.length
  · rw [if_pos hlong, if_pos hlong]
    rfl
  · rw [if_neg hlong, if_neg hlong]
    simp only [List.mem_cons, Prod.mk.injEq, List.not_mem_nil, or_false] at hop
    obtain ⟨rfl, rfl⟩ | ⟨rfl, rfl⟩ | ⟨rfl, rfl⟩ := hop <;>
      cases hrest : parseCommand fuel ts <;> simp [bind, Except.bind, hrest, Except.map, pure,
        Except.pure]

/-- The parser makes the tree of a line, if its commands are short enough. -/
theorem parseCommand_line (line : Line) : ∀ fuel, line.tokens.length < fuel →
    (∀ c ∈ line.commands, Simple c) → parseCommand fuel line.tokens =
      if ∃ c ∈ line.commands, 64 ≤ c.length then .error .overflow
      else .ok (lineNode line, []) := by
  -- a pipeline, an operator, and a line for which it is known
  have hstep : ∀ (p : Pipeline) (rest : Line) (op : Token) (type : CommandType),
      (op, type) ∈ [([';'], CommandType.sequence), (['&', '&'], .and), (['|', '|'], .or)] →
      (∀ fuel, rest.tokens.length < fuel → (∀ c ∈ rest.commands, Simple c) →
        parseCommand fuel rest.tokens = if ∃ c ∈ rest.commands, 64 ≤ c.length
          then .error .overflow else .ok (lineNode rest, [])) →
      ∀ fuel, (p.tokens ++ op :: rest.tokens).length < fuel →
        (∀ c ∈ p.commands ++ rest.commands, Simple c) →
        parseCommand fuel (p.tokens ++ op :: rest.tokens) =
          if ∃ c ∈ p.commands ++ rest.commands, 64 ≤ c.length then .error .overflow
          else .ok (.node (.cleared type) .null (pipelineNode p.first p.rest) (lineNode rest),
            []) := by
    intro p rest op type hop ih fuel hfuel hsimple
    obtain ⟨fuel, rfl⟩ := Nat.exists_eq_succ_of_ne_zero (Nat.ne_of_gt (Nat.zero_lt_of_lt hfuel))
    simp only [List.length_append, List.length_cons] at hfuel
    rw [parseCommand_operator _ (fun c hc => hsimple c (List.mem_append_left _ hc)) hop,
      ih fuel (by omega) fun c hc => hsimple c (List.mem_append_right _ hc)]
    by_cases hp : ∃ c ∈ p.commands, 64 ≤ c.length
    · obtain ⟨c, hc, hlong⟩ := hp
      rw [if_pos ⟨c, hc, hlong⟩, if_pos ⟨c, List.mem_append_left _ hc, hlong⟩]
    · rw [if_neg hp]
      by_cases hrest : ∃ c ∈ rest.commands, 64 ≤ c.length
      · obtain ⟨c, hc, hlong⟩ := hrest
        rw [if_pos ⟨c, hc, hlong⟩, if_pos ⟨c, List.mem_append_right _ hc, hlong⟩]
        rfl
      · rw [if_neg hrest, if_neg (by
          rintro ⟨c, hc, hlong⟩
          exact (List.mem_append.1 hc).elim (fun h => hp ⟨c, h, hlong⟩) fun h =>
            hrest ⟨c, h, hlong⟩)]
        rfl
  induction line with
  | last p semicolon =>
      intro fuel hfuel hsimple
      obtain ⟨fuel, rfl⟩ := Nat.exists_eq_succ_of_ne_zero (Nat.ne_of_gt (Nat.zero_lt_of_lt hfuel))
      cases semicolon with
      | true =>
          simp only [Line.tokens, if_true, List.length_append, List.length_singleton] at hfuel ⊢
          rw [parseCommand_operator [] hsimple List.mem_cons_self]
          have hnil : parseCommand fuel [] = .ok (.null, []) := by
            cases fuel <;> simp [parseCommand]
          rw [hnil]
          rfl
      | false =>
          have hpipe := parsePipeline_commands [] hsimple
            ⟨fun t ht => by simp at ht, by simp⟩
          obtain ⟨t, ts', htokens⟩ := List.exists_cons_of_ne_nil (tokens_ne_nil hsimple)
          simp only [Line.tokens, Bool.false_eq_true, if_false]
          rw [htokens, List.cons_append] at hpipe ⊢
          rw [parseCommand, hpipe]
          by_cases hlong : ∃ c ∈ p.commands, 64 ≤ c.length
          · have hline : ∃ c ∈ (Line.last p false).commands, 64 ≤ c.length := hlong
            rw [if_pos hlong, if_pos hline]
            rfl
          · have hline : ¬∃ c ∈ (Line.last p false).commands, 64 ≤ c.length := hlong
            rw [if_neg hlong, if_neg hline]
            rfl
  | seq p rest ih => exact hstep p rest _ _ (by simp) ih
  | and p rest ih => exact hstep p rest _ _ (by simp) ih
  | or p rest ih => exact hstep p rest _ _ (by simp) ih

/-! ## Running -/

theorem parseInput_line {input : List Char} {line : Line}
    (htokens : tokenize input = .ok line.tokens)
    (hsimple : ∀ c ∈ line.commands, Simple c) : parseInput input =
      if ∃ c ∈ line.commands, 64 ≤ c.length then .error .overflow else .ok (lineNode line) := by
  rw [parseInput, htokens]
  simp only [bind, Except.bind]
  rw [parseCommand_line line _ (Nat.lt_succ_self _) hsimple]
  split_ifs
  · rfl
  · rfl

/-- The node of a simple command, executed. -/
theorem executeCommand_simple (path : List Char) (arg : Token) (args : List Token)
    (next : Command) : executeCommand path [] (simpleNode (arg :: args) next) =
      if Starts path (arg :: args) then .ok [⟨arg :: args, false, false⟩]
      else if TOTAL_PATH ≤ path.length + arg.length then .error .overflow
      else .ok [] := by
  simp only [simpleNode, executeCommand, List.nil_append]
  by_cases hown : arg ∈ builtins
  · have hstarts : Starts path (arg :: args) := .inl hown
    rw [if_pos hown, if_pos hstarts]
  · have hstarts : Starts path (arg :: args) ↔
        path.length + arg.length < TOTAL_PATH ∧ execAccepts (arg :: args) = true :=
      or_iff_right hown
    by_cases hlong : TOTAL_PATH ≤ path.length + arg.length
    · rw [if_neg hown, if_pos hlong, if_neg fun h => Nat.not_lt.2 hlong (hstarts.1 h).1,
        if_pos hlong]
    · rw [if_neg hown, if_neg hlong, if_neg hlong]
      have hlt : path.length + arg.length < TOTAL_PATH := Nat.lt_of_not_le hlong
      by_cases haccepts : execAccepts (arg :: args) = true
      · rw [if_pos haccepts, if_pos (hstarts.2 ⟨hlt, haccepts⟩)]
      · rw [if_neg haccepts, if_neg fun h => haccepts (hstarts.1 h).2]

/-- The body of the loop for one simple command, with perhaps others behind it in a pipeline. -/
theorem shellLoop_simple {path input : List Char} {arg : Token} {args : List Token}
    {next : Command} (hparse : parseInput input = .ok (simpleNode (arg :: args) next)) :
    shellLoop path input = if Starts path (arg :: args) then .ok [⟨arg :: args, false, false⟩]
      else if TOTAL_PATH ≤ path.length + arg.length then .error .overflow
      else .ok [] := by
  rw [shellLoop, hparse]
  simp only [bind, Except.bind, simpleNode, Fields.cleared, compound, List.mem_cons,
    List.not_mem_nil, reduceCtorEq, or_self, if_false, List.head?_cons]
  by_cases hexit : arg = ['e', 'x', 'i', 't']
  · have hown : arg ∈ builtins := by
      rw [hexit]
      decide
    have hstarts : Starts path (arg :: args) := .inl hown
    rw [if_pos hexit, if_pos hstarts]
    rfl
  · rw [if_neg hexit]
    exact executeCommand_simple path arg args next

/-- A line of simple commands, pipelines, `;`, `&&` and `||` is run as it says if and only if it is
one simple command, with no more words than there are places for, that can be started. -/
theorem executes_iff (path input : List Char) (line : Line)
    (htokens : tokenize input = .ok line.tokens) (hsimple : ∀ c ∈ line.commands, Simple c) :
    Executes path input line ↔
      ∃ c, line = .last ⟨c, []⟩ false ∧ c.length < 64 ∧ Starts path c := by
  have hparse := parseInput_line htokens hsimple
  constructor
  · intro h
    have hrun := h fun _ => true
    by_cases hlong : ∃ c ∈ line.commands, 64 ≤ c.length
    · rw [shellLoop, hparse, if_pos hlong] at hrun
      cases hrun
    rw [if_neg hlong] at hparse
    cases line with
    | last p semicolon =>
        cases semicolon with
        | true =>
            rw [shellLoop, hparse] at hrun
            cases hrun
        | false =>
            obtain ⟨c, cs⟩ := p
            have hshort : c.length < 64 :=
              Nat.lt_of_not_le fun hle => hlong ⟨c, List.mem_cons_self, hle⟩
            obtain ⟨arg, args, rfl⟩ :=
              List.exists_cons_of_ne_nil (hsimple c List.mem_cons_self).1
            cases cs with
            | nil =>
                rw [shellLoop_simple hparse] at hrun
                refine ⟨_, rfl, hshort, ?_⟩
                by_contra hno
                rw [if_neg hno] at hrun
                split_ifs at hrun
                cases hrun
            | cons d cs =>
                -- the executor runs one command of the pipeline
                rw [shellLoop_simple hparse] at hrun
                split_ifs at hrun <;> cases hrun
    | seq p rest =>
        rw [shellLoop, hparse] at hrun
        cases hrun
    | and p rest =>
        rw [shellLoop, hparse] at hrun
        cases hrun
    | or p rest =>
        rw [shellLoop, hparse] at hrun
        cases hrun
  · rintro ⟨c, rfl, hc, hstarts⟩ status
    obtain ⟨arg, args, rfl⟩ := List.exists_cons_of_ne_nil (hsimple c List.mem_cons_self).1
    have hshort : ¬∃ d ∈ (Line.last ⟨arg :: args, []⟩ false).commands, 64 ≤ d.length := by
      rintro ⟨d, hd, hlong⟩
      obtain rfl := List.mem_singleton.1 hd
      exact Nat.not_le.2 hc hlong
    rw [if_neg hshort] at hparse
    rw [shellLoop_simple hparse, if_pos hstarts]
    rfl

/-- `ls /bin` is run. -/
theorem executes_ls : Executes ['/', 'b', 'i', 'n', '/'] ['l', 's', ' ', '/', 'b', 'i', 'n']
    (.last ⟨[['l', 's'], ['/', 'b', 'i', 'n']], []⟩ false) :=
  (executes_iff _ _ _ rfl (by decide)).2 ⟨_, rfl, by decide, by decide⟩

/-- `a;b` reads through the null pointer of the sequence. -/
theorem sequence_not_executed :
    tokenize ['a', ';', 'b'] = .ok (Line.seq ⟨[['a']], []⟩ (.last ⟨[['b']], []⟩ false)).tokens ∧
      shellLoop ['/', 'b', 'i', 'n', '/'] ['a', ';', 'b'] = .error .nullArgs ∧
      ¬ Executes ['/', 'b', 'i', 'n', '/'] ['a', ';', 'b']
        (.seq ⟨[['a']], []⟩ (.last ⟨[['b']], []⟩ false)) := by
  have hrun : shellLoop ['/', 'b', 'i', 'n', '/'] ['a', ';', 'b'] = .error .nullArgs := rfl
  refine ⟨rfl, hrun, fun h => ?_⟩
  have := h fun _ => true
  rw [hrun] at this
  cases this

end Xv6.User.Bash2

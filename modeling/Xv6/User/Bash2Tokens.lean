import Mathlib.Data.List.Basic
import Xv6.User.Bash2

/-!
# The tokens of `bash2` and the text of a subshell

What `tokenize` of `shell_lib/parser.c` makes of a line, and what it makes of the text that
`parse_subshell` puts together from the tokens between two parentheses.  Every character of a line
gets into a token but white space and the quotes around a word, so when no quote is lost, no word
was quoted.

## Main results

* `tokenize_iff`: the tokens of a line, without the counter of the loop.
* `subshell_iff`: when the text of a subshell has the tokens it was made from.
-/

namespace Xv6.User.Bash2

variable {s p r : List Char} {c : Char} {t : Token} {ts us : List Token}

/-! ## One token -/

/-- The token at the head of an input that is not white space, and the rest. -/
def firstToken : List Char → Token × List Char
  | [] => ([], [])
  | c :: p => if isOperator c then operatorToken (c :: p) else wordToken (c :: p)

/-- `"` or `'`. -/
def isQuote (c : Char) : Bool := c = '"' ∨ c = '\''

/-- The operators. -/
def operatorTokens : List Token :=
  [[';', ';'], [';'], ['&', '&'], ['&'], ['|', '|'], ['|'], ['>', '>'], ['>'], ['<'], ['('], [')']]

/-- A character that does not end a word. -/
def inWord (c : Char) : Prop := isspace c = false ∧ isOperator c = false

/-- A word that is read without quotes; `*)` may be at its end. -/
def PlainWord (t : Token) : Prop :=
  (∀ c, t.head? = some c → isQuote c = false) ∧ t ≠ [] ∧
    ((∀ c ∈ t, inWord c) ∨ ∃ u, t = u ++ ['*', ')'] ∧ ∀ c ∈ u, inWord c)

/-- A token that stands for itself. -/
def Plain (t : Token) : Prop := t ∈ operatorTokens ∨ PlainWord t

theorem operatorToken_append (h : isOperator c = true) :
    (operatorToken (c :: p)).1 ++ (operatorToken (c :: p)).2 = c :: p ∧
      (operatorToken (c :: p)).1 ∈ operatorTokens := by
  rw [isOperator, decide_eq_true_iff] at h
  rw [operatorToken.eq_def]
  split
  · rename_i p heq
    exact ⟨heq.symm, by simp [operatorTokens]⟩
  · rename_i p heq
    exact ⟨heq.symm, by simp [operatorTokens]⟩
  · rename_i p heq
    exact ⟨heq.symm, by simp [operatorTokens]⟩
  · rename_i p heq
    exact ⟨heq.symm, by simp [operatorTokens]⟩
  · rename_i d p _ _ _ _ heq
    cases heq
    refine ⟨rfl, ?_⟩
    simp only [List.mem_cons, List.not_mem_nil, or_false] at h
    dsimp only
    rcases h with rfl | rfl | rfl | rfl | rfl | rfl | rfl <;> decide
  · rename_i heq
    cases heq

theorem plainWord_append (s : List Char) : (plainWord s).1 ++ (plainWord s).2 = s := by
  fun_induction plainWord s with
  | case1 p => rfl
  | case2 c p h hend => rfl
  | case3 c p h hend ih => rw [List.cons_append, ih]
  | case4 => rfl

/-- What `plainWord` takes. -/
theorem plainWord_chars (s : List Char) : (∀ c ∈ (plainWord s).1, inWord c) ∨
    ∃ u, (plainWord s).1 = u ++ ['*', ')'] ∧ ∀ c ∈ u, inWord c := by
  fun_induction plainWord s with
  | case1 p => exact .inr ⟨[], rfl, nofun⟩
  | case2 c p h hend => exact .inl nofun
  | case3 c p h hend ih =>
      have hc : inWord c := by
        simpa only [inWord, not_or, Bool.not_eq_true] using hend
      rcases ih with hall | ⟨u, hu, hall⟩
      · exact .inl (List.forall_mem_cons.2 ⟨hc, hall⟩)
      · exact .inr ⟨c :: u, by rw [hu]; rfl, List.forall_mem_cons.2 ⟨hc, hall⟩⟩
  | case4 => exact .inl nofun

theorem plainWord_head (hspace : isspace c = false) (hop : isOperator c = false) :
    ∃ u, (plainWord (c :: p)).1 = c :: u := by
  rw [plainWord.eq_def]
  split
  · rename_i heq
    cases heq
    exact ⟨_, rfl⟩
  · rename_i heq
    cases heq
    rw [if_neg (by simp [hspace, hop])]
    exact ⟨_, rfl⟩
  · rename_i heq
    cases heq

/-- How the first token is cut off: it is plain and the beginning of the input, or it stands between
two quotes. -/
theorem firstToken_cases (hspace : isspace c = false) :
    (Plain (firstToken (c :: p)).1 ∧ (firstToken (c :: p)).1 ≠ [] ∧
      (firstToken (c :: p)).1 ++ (firstToken (c :: p)).2 = c :: p) ∨
    (isQuote c = true ∧ c ∉ (firstToken (c :: p)).1 ∧
      ((firstToken (c :: p)).1 ++ (firstToken (c :: p)).2 = p ∧ (firstToken (c :: p)).2 = [] ∨
        (firstToken (c :: p)).1 ++ c :: (firstToken (c :: p)).2 = p)) := by
  rw [firstToken]
  by_cases hop : isOperator c = true
  · obtain ⟨happend, hmem⟩ := operatorToken_append (p := p) hop
    rw [if_pos hop]
    refine .inl ⟨.inl hmem, ?_, happend⟩
    intro hnil
    rw [hnil] at hmem
    exact absurd hmem (by decide)
  · rw [if_neg hop, wordToken]
    by_cases hquote : c = '"' ∨ c = '\''
    · rw [if_pos hquote]
      refine .inr ⟨by simpa [isQuote] using hquote, ?_, ?_⟩
      · intro hin
        have := List.all_eq_true.1 List.all_takeWhile c hin
        simp at this
      · have hsplit := List.takeWhile_append_dropWhile (p := (· ≠ c)) (l := p)
        cases hd : p.dropWhile (· ≠ c) with
        | nil =>
            rw [hd] at hsplit
            exact .inl ⟨hsplit, rfl⟩
        | cons d r =>
            have hnot := List.head?_dropWhile_not (· ≠ c) p
            rw [hd] at hnot
            obtain rfl : d = c := by simpa using hnot
            rw [hd] at hsplit
            exact .inr hsplit
    · rw [if_neg hquote]
      have hop' : isOperator c = false := Bool.eq_false_iff.2 hop
      obtain ⟨u, hu⟩ := plainWord_head (p := p) hspace hop'
      have hne : (plainWord (c :: p)).1 ≠ [] := by rw [hu]; simp
      refine .inl ⟨.inr ⟨fun d hd => ?_, hne, plainWord_chars _⟩, hne, plainWord_append _⟩
      rw [hu] at hd
      cases hd
      simpa [isQuote] using hquote

theorem firstToken_length (hspace : isspace c = false) :
    (firstToken (c :: p)).1.length + (firstToken (c :: p)).2.length ≤ p.length + 1 ∧
      (firstToken (c :: p)).2.length ≤ p.length := by
  rcases firstToken_cases (p := p) hspace with ⟨-, hne, happend⟩ | ⟨-, -, ⟨happend, -⟩ | happend⟩
  all_goals
    have hlen := congrArg List.length happend
    simp only [List.length_append, List.length_cons] at hlen
  · have := List.length_pos_iff.2 hne
    omega
  · omega
  · omega

/-- A plain token in front of a blank is read again. -/
theorem firstToken_plain (h : Plain t) (s : List Char) :
    firstToken (t ++ ' ' :: s) = (t, ' ' :: s) ∧ ∃ c u, t = c :: u ∧ isspace c = false := by
  rcases h with h | ⟨hquote, hne, hchars⟩
  · simp only [operatorTokens, List.mem_cons, List.not_mem_nil, or_false] at h
    rcases h with rfl | rfl | rfl | rfl | rfl | rfl | rfl | rfl | rfl | rfl | rfl <;>
      exact ⟨rfl, _, _, rfl, rfl⟩
  · -- the loop goes to the end of the word
    have hall : ∀ t, (∀ c ∈ t, inWord c) → ∀ r : List Char, (∀ d, r.head? = some d → d ≠ ')') →
        plainWord (t ++ r) = (t ++ (plainWord r).1, (plainWord r).2) := by
      intro t
      induction t with
      | nil => exact fun _ r _ => rfl
      | cons c t ih =>
          intro hin r hr
          obtain ⟨hc, ht⟩ := List.forall_mem_cons.1 hin
          have hrec := ih ht r hr
          rw [List.cons_append, plainWord.eq_2, hrec, if_neg (by simp [hc.1, hc.2])]
          · rfl
          · rintro p rfl hp
            cases t with
            | nil => exact hr ')' (by rw [show r = ')' :: p from hp]; rfl) rfl
            | cons d t =>
                cases hp
                exact absurd (ht ')' List.mem_cons_self).2 (by decide)
    have hword : plainWord (t ++ ' ' :: s) = (t, ' ' :: s) := by
      have hblank : plainWord (' ' :: s) = ([], ' ' :: s) := rfl
      rcases hchars with hin | ⟨u, rfl, hin⟩
      · rw [hall t hin _ (fun d hd => by cases hd; decide), hblank, List.append_nil]
      · rw [List.append_assoc, hall u hin _ (fun d hd => by cases hd; decide)]
        rfl
    obtain ⟨c, u, rfl⟩ := List.exists_cons_of_ne_nil hne
    have hc : inWord c := by
      rcases hchars with hin | ⟨v, hv, hin⟩
      · exact hin c List.mem_cons_self
      · cases v with
        | nil =>
            cases hv
            exact ⟨rfl, rfl⟩
        | cons d v =>
            cases hv
            exact hin c List.mem_cons_self
    refine ⟨?_, c, u, rfl, hc.1⟩
    have hcquote : ¬(c = '"' ∨ c = '\'') := by simpa [isQuote] using hquote c rfl
    rw [List.cons_append] at hword ⊢
    rw [firstToken, if_neg (by rw [hc.2]; exact Bool.false_ne_true), wordToken, if_neg hcquote,
      hword]

/-! ## All tokens -/

/-- `ts` are the tokens of a line. -/
inductive Lexes : List Char → List Token → Prop
  | nil {s : List Char} (h : s.dropWhile isspace = []) : Lexes s []
  | cons {s p : List Char} {c : Char} {ts : List Token} (h : s.dropWhile isspace = c :: p)
      (hrest : Lexes (firstToken (c :: p)).2 ts) : Lexes s ((firstToken (c :: p)).1 :: ts)

/-- The first character of what is left is no white space. -/
theorem not_isspace (h : s.dropWhile isspace = c :: p) : isspace c = false := by
  have hnot := List.head?_dropWhile_not isspace s
  rw [h] at hnot
  simpa using hnot

theorem Lexes.unique (h : Lexes s ts) (h' : Lexes s us) : ts = us := by
  induction h generalizing us with
  | nil hs =>
      cases h' with
      | nil => rfl
      | cons hs' => rw [hs] at hs'; cases hs'
  | cons hs _ ih =>
      cases h' with
      | nil hs' => rw [hs] at hs'; cases hs'
      | cons hs' hrest =>
          rw [hs] at hs'
          cases hs'
          rw [ih hrest]

/-- A token is no longer than what it is read from, and takes at least one character. -/
theorem Lexes.length (h : Lexes s ts) :
    ts.length ≤ s.length ∧ (ts.map List.length).sum ≤ s.length := by
  induction h with
  | nil => exact ⟨Nat.zero_le _, Nat.zero_le _⟩
  | @cons s p c ts hs _ ih =>
      have hdrop := (List.dropWhile_suffix (l := s) isspace).length_le
      have hfirst := firstToken_length (p := p) (not_isspace hs)
      rw [hs, List.length_cons] at hdrop
      rw [List.length_cons, List.map_cons, List.sum_cons]
      omega

theorem Lexes.token_length (h : Lexes s ts) : ∀ t ∈ ts, t.length ≤ s.length := by
  induction h with
  | nil => exact nofun
  | @cons s p c ts hs _ ih =>
      have hdrop := (List.dropWhile_suffix (l := s) isspace).length_le
      have hfirst := firstToken_length (p := p) (not_isspace hs)
      rw [hs, List.length_cons] at hdrop
      refine List.forall_mem_cons.2 ⟨by omega, fun t ht => ?_⟩
      have := ih t ht
      omega

theorem tokenizeLoop_cons (fuel : Nat) (h : s.dropWhile isspace = c :: p) :
    tokenizeLoop (fuel + 1) s = if 1024 ≤ (firstToken (c :: p)).1.length then .error .overflow
      else (tokenizeLoop fuel (firstToken (c :: p)).2).map ((firstToken (c :: p)).1 :: ·) := by
  rw [tokenizeLoop, h]
  rfl

theorem tokenizeLoop_iff {fuel : Nat} (hfuel : s.length < fuel) :
    tokenizeLoop fuel s = .ok ts ↔ Lexes s ts ∧ ∀ t ∈ ts, t.length < 1024 := by
  induction fuel generalizing s ts with
  | zero => exact absurd hfuel (Nat.not_lt_zero _)
  | succ fuel ih =>
      cases hs : s.dropWhile isspace with
      | nil =>
          have hloop : tokenizeLoop (fuel + 1) s = .ok [] := by rw [tokenizeLoop, hs]
          rw [hloop]
          constructor
          · intro h
            cases h
            exact ⟨.nil hs, nofun⟩
          · rintro ⟨hlex, -⟩
            rw [hlex.unique (.nil hs)]
      | cons c p =>
          have hdrop := (List.dropWhile_suffix (l := s) isspace).length_le
          have hfirst := firstToken_length (p := p) (not_isspace hs)
          rw [hs, List.length_cons] at hdrop
          have hrest : ∀ {us}, tokenizeLoop fuel (firstToken (c :: p)).2 = .ok us ↔ _ :=
            ih (by omega)
          rw [tokenizeLoop_cons fuel hs]
          constructor
          · intro h
            split at h
            · cases h
            · rename_i hlong
              cases hx : tokenizeLoop fuel (firstToken (c :: p)).2 with
              | error e =>
                  rw [hx] at h
                  cases h
              | ok us =>
                  rw [hx] at h
                  cases h
                  obtain ⟨hlex, hall⟩ := hrest.1 hx
                  exact ⟨.cons hs hlex, List.forall_mem_cons.2 ⟨Nat.lt_of_not_le hlong, hall⟩⟩
          · rintro ⟨hlex, hall⟩
            cases hlex with
            | nil hs' => rw [hs] at hs'; cases hs'
            | cons hs' hlex =>
                rw [hs] at hs'
                cases hs'
                obtain ⟨hshort, hall⟩ := List.forall_mem_cons.1 hall
                rw [if_neg (Nat.not_le.2 hshort), hrest.2 ⟨hlex, hall⟩]
                rfl

/-- `tokenize` gives the tokens of the line, if there are not too many and none is too long. -/
theorem tokenize_iff : tokenize s = .ok ts ↔
    Lexes s ts ∧ (∀ t ∈ ts, t.length < 1024) ∧ ts.length < 256 := by
  rw [tokenize, ← and_assoc, ← tokenizeLoop_iff (Nat.lt_succ_self s.length)]
  cases tokenizeLoop (s.length + 1) s with
  | error e => exact iff_of_false nofun fun h => nomatch h.1
  | ok us =>
      simp only [bind, Except.bind]
      split
      · rename_i hmany
        refine iff_of_false nofun ?_
        rintro ⟨h, hfew⟩
        cases h
        omega
      · rename_i hfew
        simp only [pure, Except.pure, Except.ok.injEq, iff_self_and]
        rintro rfl
        exact Nat.lt_of_not_le hfew

/-! ## Characters -/

theorem count_dropWhile (P : Char → Bool) (hP : ∀ c, P c = true → isspace c = false)
    (s : List Char) : (s.dropWhile isspace).countP P = s.countP P := by
  have hsplit := List.takeWhile_append_dropWhile (p := isspace) (l := s)
  have hnone : (s.takeWhile isspace).countP P = 0 := by
    rw [List.countP_eq_zero]
    intro c hc hPc
    have := List.all_eq_true.1 List.all_takeWhile c hc
    rw [hP c hPc] at this
    cases this
  conv_rhs => rw [← hsplit]
  rw [List.countP_append, hnone, Nat.zero_add]

/-- A character that is neither white space nor a quote gets into a token. -/
theorem Lexes.count (h : Lexes s ts) (P : Char → Bool)
    (hP : ∀ c, P c = true → isspace c = false ∧ isQuote c = false) :
    ts.flatten.countP P = s.countP P := by
  induction h with
  | @nil s hs =>
      rw [← count_dropWhile P (fun c hc => (hP c hc).1) s, hs]
      rfl
  | @cons s p c ts hs _ ih =>
      rw [← count_dropWhile P (fun c hc => (hP c hc).1) s, hs, List.flatten_cons,
        List.countP_append, ih]
      rcases firstToken_cases (p := p) (not_isspace hs) with
        ⟨-, -, happend⟩ | ⟨hquote, -, ⟨happend, -⟩ | happend⟩
      · rw [← List.countP_append, happend]
      all_goals
        have hc : P c = false := by
          by_contra hPc
          have := (hP c (by simpa using hPc)).2
          rw [hquote] at this
          cases this
        rw [List.countP_cons_of_neg (by rw [hc]; exact Bool.false_ne_true)]
        conv_rhs => rw [← happend]
        rw [List.countP_append]
      rw [List.countP_cons_of_neg (by rw [hc]; exact Bool.false_ne_true)]

theorem isspace_of_isQuote (h : isQuote c = true) : isspace c = false := by
  rw [isQuote, decide_eq_true_iff] at h
  rcases h with rfl | rfl <;> rfl

/-- Quotes get lost with a word between quotes, and only so. -/
theorem Lexes.quotes (h : Lexes s ts) : ts.flatten.countP isQuote ≤ s.countP isQuote ∧
    (s.countP isQuote ≤ ts.flatten.countP isQuote → ∀ t ∈ ts, Plain t) := by
  induction h with
  | nil => exact ⟨Nat.zero_le _, fun _ => nofun⟩
  | @cons s p c ts hs _ ih =>
      rw [← count_dropWhile isQuote (fun c hc => isspace_of_isQuote hc) s, hs, List.flatten_cons,
        List.countP_append]
      rcases firstToken_cases (p := p) (not_isspace hs) with
        ⟨hplain, -, happend⟩ | ⟨hquote, -, ⟨happend, -⟩ | happend⟩
      · have hcount := congrArg (List.countP isQuote) happend
        rw [List.countP_append] at hcount
        exact ⟨by omega, fun hle => List.forall_mem_cons.2 ⟨hplain, ih.2 (by omega)⟩⟩
      all_goals
        have hcount := congrArg (List.countP isQuote) happend
        rw [List.countP_append] at hcount
        rw [List.countP_cons_of_pos hquote]
      · exact ⟨by omega, fun hle => by omega⟩
      · rw [List.countP_cons_of_pos hquote] at hcount
        exact ⟨by omega, fun hle => by omega⟩

/-! ## The text of a subshell -/

/-- The tokens with a blank behind each of them. -/
def spaced (ts : List Token) : List Char := ts.flatMap (· ++ [' '])

theorem lexes_spaced (h : ∀ t ∈ ts, Plain t) : Lexes (spaced ts) ts := by
  -- a blank in front is skipped
  have hblank : ∀ {s : List Char} {us : List Token}, Lexes s us → Lexes (' ' :: s) us := by
    intro s us hs
    cases hs with
    | nil hs => exact .nil hs
    | cons hs hrest => exact .cons hs hrest
  induction ts with
  | nil => exact .nil rfl
  | cons t ts ih =>
      obtain ⟨ht, hts⟩ := List.forall_mem_cons.1 h
      obtain ⟨hfirst, c, u, rfl, hspace⟩ := firstToken_plain ht (spaced ts)
      have htext : spaced ((c :: u) :: ts) = c :: (u ++ ' ' :: spaced ts) := by
        simp [spaced]
      have hdrop : (spaced ((c :: u) :: ts)).dropWhile isspace = c :: (u ++ ' ' :: spaced ts) := by
        rw [htext, List.dropWhile_cons, hspace]
        rfl
      rw [List.cons_append] at hfirst
      have htail : Lexes (firstToken (c :: (u ++ ' ' :: spaced ts))).2 ts := by
        rw [hfirst]
        exact hblank (ih hts)
      have hcons := Lexes.cons hdrop htail
      rw [hfirst] at hcons
      exact hcons

theorem count_spaced (P : Char → Bool) (hP : P ' ' = false) (ts : List Token) :
    (spaced ts).countP P = ts.flatten.countP P := by
  induction ts with
  | nil => rfl
  | cons t ts ih =>
      rw [spaced, List.flatMap_cons, List.countP_append, List.countP_append, List.flatten_cons,
        List.countP_append, ← ih, spaced, List.countP_singleton, hP]
      simp

/-- A text with blanks has the tokens it was made from if and only if these are plain. -/
theorem lexes_spaced_iff : Lexes (spaced ts) ts ↔ ∀ t ∈ ts, Plain t :=
  ⟨fun h => h.quotes.2 (Nat.le_of_eq (count_spaced isQuote rfl ts)), lexes_spaced⟩

/-- How many parentheses are open behind `ts`, if the last of the `n` was not closed. -/
def openBehind : Nat → List Token → Option Nat
  | n, [] => some n
  | n, t :: ts =>
      if t = ['('] then openBehind (n + 1) ts
      else if t = [')'] then if n ≤ 1 then none else openBehind (n - 1) ts
      else openBehind n ts

/-- The parentheses among the tokens match. -/
def Balanced (ts : List Token) : Prop := openBehind 1 ts = some 1

instance (ts : List Token) : Decidable (Balanced ts) := inferInstanceAs (Decidable (_ = _))

theorem openBehind_append (n : Nat) (ts us : List Token) :
    openBehind n (ts ++ us) = (openBehind n ts).bind fun k => openBehind k us := by
  induction ts generalizing n with
  | nil => rfl
  | cons t ts ih =>
      rw [List.cons_append, openBehind, openBehind]
      split_ifs
      · exact ih _
      · rfl
      · exact ih _
      · exact ih _

/-- `parse_subshell` takes balanced tokens up to the closing parenthesis. -/
theorem subshellLoop_some {n : Nat} {buffer text : List Char} (hn : 1 ≤ n)
    (h : subshellLoop n buffer ts = some (text, us)) : ∃ inner, ts = inner ++ [')'] :: us ∧
      text = buffer ++ spaced inner ∧ openBehind n inner = some 1 := by
  induction ts generalizing n buffer with
  | nil => cases h
  | cons t ts ih =>
      rw [subshellLoop] at h
      by_cases hopen : t = ['(']
      · rw [if_pos hopen] at h
        obtain ⟨inner, rfl, rfl, hinner⟩ := ih (Nat.le_add_left 1 n) h
        refine ⟨t :: inner, rfl, by simp [spaced], ?_⟩
        rw [openBehind, if_pos hopen, hinner]
      · rw [if_neg hopen] at h
        by_cases hclose : t = [')'] ∧ n = 1
        · rw [if_pos hclose] at h
          cases h
          obtain ⟨rfl, rfl⟩ := hclose
          exact ⟨[], rfl, by simp [spaced], rfl⟩
        · rw [if_neg hclose] at h
          by_cases hparen : t = [')']
          · have hn1 : ¬n ≤ 1 := fun hle => hclose ⟨hparen, by omega⟩
            rw [if_pos hparen] at h
            obtain ⟨inner, rfl, rfl, hinner⟩ := ih (by omega) h
            refine ⟨t :: inner, rfl, by simp [spaced], ?_⟩
            rw [openBehind, if_neg hopen, if_pos hparen, if_neg hn1, hinner]
          · rw [if_neg hparen] at h
            obtain ⟨inner, rfl, rfl, hinner⟩ := ih hn h
            refine ⟨t :: inner, rfl, by simp [spaced], ?_⟩
            rw [openBehind, if_neg hopen, if_neg hparen, hinner]

theorem redirections_args (cmd : Fields) (ts : List Token) :
    (redirections cmd ts).1.args = cmd.args := by
  fun_induction redirections cmd ts <;> simp_all

/-- The node of a subshell has the text of the tokens up to its closing parenthesis. -/
theorem parseSubshell_node {fields : Fields} {next th el : Command}
    (h : parseSubshell ts = .ok (.node fields next th el, us)) : ∃ inner rest,
      ts = inner ++ [')'] :: rest ∧ Balanced inner ∧
      fields.args = some [['s', 'h'], ['-', 'c'], spaced inner] := by
  rw [parseSubshell] at h
  cases hloop : subshellLoop 1 [] ts with
  | none =>
      rw [hloop] at h
      cases h
  | some r =>
      obtain ⟨text, rest⟩ := r
      obtain ⟨inner, hts, rfl, hinner⟩ := subshellLoop_some (Nat.le_refl 1) hloop
      refine ⟨inner, rest, hts, hinner, ?_⟩
      rw [hloop] at h
      simp only [List.nil_append] at h
      split at h
      · cases h
      · cases h
        exact redirections_args _ _

/-- Parentheses that match do so in one way. -/
theorem balanced_unique {inner inner' rest rest' : List Token}
    (heq : inner ++ [')'] :: rest = inner' ++ [')'] :: rest') (h : Balanced inner)
    (h' : Balanced inner') : inner = inner' := by
  have hclosed : ∀ {a : List Token} (b : List Token), Balanced a → ¬Balanced (a ++ [')'] :: b) := by
    intro a b ha hab
    rw [Balanced, openBehind_append, ha] at hab
    cases hab
  rcases List.append_eq_append_iff.1 heq with ⟨a, rfl, ha⟩ | ⟨a, rfl, ha⟩
  · cases a with
    | nil => simp
    | cons t a =>
        cases ha
        exact absurd h' (hclosed _ h)
  · cases a with
    | nil => simp
    | cons t a =>
        cases ha
        exact absurd h (hclosed _ h')

/-- Take a line, two parentheses among its tokens, and the node that `parse_subshell` makes behind
the first of them.  The text that it hands to `sh -c` has the tokens between the two if and only if
each of these is plain and the parser takes the second parenthesis for the one that matches. -/
theorem subshell_iff (line : List Char) (pre inner rest us : List Token) (fields : Fields)
    (next th el : Command)
    (hline : tokenize line = .ok (pre ++ ['('] :: (inner ++ [')'] :: rest)))
    (hnode : parseSubshell (inner ++ [')'] :: rest) = .ok (.node fields next th el, us)) :
    ∃ text, fields.args = some [['s', 'h'], ['-', 'c'], text] ∧
      (tokenize text = .ok inner ↔ Balanced inner ∧ ∀ t ∈ inner, Plain t) := by
  obtain ⟨taken, rest', heq, htaken, hargs⟩ := parseSubshell_node hnode
  obtain ⟨-, hshort, hfew⟩ := tokenize_iff.1 hline
  have hinner : ∀ t ∈ inner, t.length < 1024 := fun t ht => hshort t (by simp [ht])
  have hlen : inner.length < 256 := by
    simp only [List.length_append, List.length_cons] at hfew
    omega
  refine ⟨spaced taken, hargs, ?_⟩
  rw [tokenize_iff, and_iff_left ⟨hinner, hlen⟩]
  constructor
  · intro hlex
    -- no parenthesis gets lost
    have hcount := hlex.count (· = ')') (by
      intro c hc
      obtain rfl := of_decide_eq_true hc
      exact ⟨rfl, rfl⟩)
    rw [count_spaced _ rfl] at hcount
    have hsame : taken = inner := by
      rcases List.append_eq_append_iff.1 heq with ⟨a, rfl, ha⟩ | ⟨a, rfl, ha⟩
      · cases a with
        | nil => simp
        | cons t a =>
            cases ha
            simp at hcount
      · cases a with
        | nil => simp
        | cons t a =>
            cases ha
            simp at hcount
    rw [hsame] at hlex htaken
    exact ⟨htaken, lexes_spaced_iff.1 hlex⟩
  · rintro ⟨hbal, hplain⟩
    rw [← balanced_unique heq hbal htaken]
    exact lexes_spaced hplain

/-- `(ls *)`. -/
theorem subshell_ls : ∃ text, some [['s', 'h'], ['-', 'c'], ['l', 's', ' ', '*', ' ']] =
      some [['s', 'h'], ['-', 'c'], text] ∧
    (tokenize text = .ok [['l', 's'], ['*']] ↔
      Balanced [['l', 's'], ['*']] ∧ ∀ t ∈ [['l', 's'], ['*']], Plain t) :=
  subshell_iff ['(', 'l', 's', ' ', '*', ' ', ')'] [] [['l', 's'], ['*']] [] []
    { Fields.cleared .simple with
      args := some [['s', 'h'], ['-', 'c'], ['l', 's', ' ', '*', ' ']]
      command := some ['l', 's', ' ', '*', ' '] } .null .null .null rfl rfl

/-- `("a b")`: the word in quotes becomes two. -/
theorem subshell_splits_word :
    tokenize ['(', '"', 'a', ' ', 'b', '"', ')'] = .ok [['('], ['a', ' ', 'b'], [')']] ∧
    (∃ fields, parseInput ['(', '"', 'a', ' ', 'b', '"', ')'] =
        .ok (.node fields .null .null .null) ∧
      fields.args = some [['s', 'h'], ['-', 'c'], ['a', ' ', 'b', ' ']]) ∧
    tokenize ['a', ' ', 'b', ' '] ≠ .ok [['a', ' ', 'b']] :=
  ⟨rfl, ⟨_, rfl, rfl⟩, fun h => by cases h⟩

end Xv6.User.Bash2

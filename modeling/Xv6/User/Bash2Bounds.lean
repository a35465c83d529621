import Xv6.User.Bash2Tokens

/-!
# The bounds of `bash2`'s parser

`parse_simple` reads a simple command as a sequence of items: arguments, `&`, and redirections with
their files.  From there on the functions of `shell_lib/parser.c` are followed through the tokens by
a scanner with finitely many places, which knows where they go wrong.

## Main results

* `parser_safe_iff`: on a line of at most 255 characters the parser ends, and it stays in its bounds
  if and only if the scanner does.
-/

namespace Xv6.User.Bash2

variable {c : Char} {s : List Char} {t : Token} {ts us rest : List Token}

/-! ## Items -/

/-- The redirection operators. -/
def redirectionTokens : List Token := [['<'], ['>'], ['>', '>']]

/-- A part of a simple command. -/
inductive Item where
  | arg (t : Token)
  | background
  | redirection (op file : Token)
  deriving DecidableEq

namespace Item

/-- Its tokens. -/
def tokens : Item → List Token
  | arg t => [t]
  | background => [['&']]
  | redirection op file => [op, file]

/-- `parse_simple` reads its tokens as this item. -/
def Ok : Item → Prop
  | arg t => t ∉ stopTokens ∧ t ≠ ['&'] ∧ t ∉ redirectionTokens
  | background => True
  | redirection op _ => op ∈ redirectionTokens

/-- The argument. -/
def arg? : Item → Option Token
  | arg t => some t
  | background => none
  | redirection _ _ => none

/-- The node behind the item. -/
def apply (cmd : Fields) : Item → Fields
  | arg _ => cmd
  | background => { cmd with background := true }
  | redirection op file =>
      if op = ['<'] then { cmd with inputFile := some file }
      else { cmd with outputFile := some file, appendOutput := op = ['>', '>'] }

end Item

variable {i : Item} {items : List Item}

/-- The tokens of items. -/
def itemTokens (items : List Item) : List Token := items.flatMap Item.tokens

/-- The arguments among items. -/
def itemArgs (items : List Item) : List Token := items.filterMap Item.arg?

/-- The node behind items. -/
def applyItems (cmd : Fields) (items : List Item) : Fields := items.foldl Item.apply cmd

theorem simpleLoop_item (cmd : Fields) (args : List Token) (h : i.Ok) (ts : List Token) :
    simpleLoop cmd args (i.tokens ++ ts) =
      simpleLoop (i.apply cmd) (args ++ i.arg?.toList) ts := by
  cases i with
  | arg t =>
      obtain ⟨hstop, hback, hredir⟩ := h
      simp only [redirectionTokens, List.mem_cons, List.not_mem_nil, or_false, not_or] at hredir
      rw [Item.tokens, List.singleton_append, simpleLoop.eq_def]
      dsimp only
      rw [if_neg hstop, if_neg hback, if_neg hredir.1, if_neg (not_or.2 hredir.2)]
      rfl
  | background =>
      rw [Item.tokens, List.singleton_append, simpleLoop.eq_def]
      dsimp only
      rw [if_neg (by decide), if_pos rfl, Item.arg?, Option.toList_none, List.append_nil]
      rfl
  | redirection op file =>
      rw [Item.tokens, Item.arg?, Option.toList_none, List.append_nil, List.cons_append,
        List.singleton_append, simpleLoop.eq_def]
      simp only [Item.Ok, redirectionTokens, List.mem_cons, List.not_mem_nil, or_false] at h
      rcases h with rfl | rfl | rfl
      · rfl
      · rfl
      · rfl

theorem simpleLoop_items (cmd : Fields) (args : List Token) (h : ∀ i ∈ items, i.Ok)
    (ts : List Token) : simpleLoop cmd args (itemTokens items ++ ts) =
      simpleLoop (applyItems cmd items) (args ++ itemArgs items) ts := by
  induction items generalizing cmd args with
  | nil =>
      rw [show itemArgs [] = [] from rfl, List.append_nil]
      rfl
  | cons i items ih =>
      obtain ⟨hi, hitems⟩ := List.forall_mem_cons.1 h
      rw [itemTokens, List.flatMap_cons, List.append_assoc, simpleLoop_item cmd args hi]
      have hrest := ih (i.apply cmd) (args ++ i.arg?.toList) hitems
      rw [itemTokens] at hrest
      rw [hrest, List.append_assoc]
      have hargs : i.arg?.toList ++ itemArgs items = itemArgs (i :: items) := by
        rw [itemArgs, itemArgs, List.filterMap_cons]
        cases i.arg? <;> rfl
      rw [hargs]
      rfl

theorem simpleLoop_ends (cmd : Fields) (args : List Token) (h : Ends ts) :
    simpleLoop cmd args ts = (cmd, args, ts) := by
  have hwords := simpleLoop_words cmd (c := []) nofun h args
  rwa [List.nil_append, List.append_nil] at hwords

/-- An operator without a file is dropped. -/
theorem simpleLoop_noFile (cmd : Fields) (args : List Token) (h : t ∈ redirectionTokens) :
    simpleLoop cmd args [t] = (cmd, args, []) := by
  simp only [redirectionTokens, List.mem_cons, List.not_mem_nil, or_false] at h
  rcases h with rfl | rfl | rfl
  · rfl
  · rfl
  · rfl

/-- Every sequence of tokens begins with items, up to a token at which `parse_simple` ends or an
operator that has no file. -/
theorem items_cases (ts : List Token) : ∃ items stop, ts = itemTokens items ++ stop ∧
    (∀ i ∈ items, i.Ok) ∧ (Ends stop ∨ ∃ op ∈ redirectionTokens, stop = [op]) := by
  induction hn : ts.length using Nat.strongRecOn generalizing ts with
  | ind n ih =>
      subst hn
      -- one item in front
      have hcons : ∀ (i : Item) (us : List Token), i.Ok → ts = i.tokens ++ us →
          us.length < ts.length → ∃ items stop, ts = itemTokens items ++ stop ∧
            (∀ i ∈ items, i.Ok) ∧ (Ends stop ∨ ∃ op ∈ redirectionTokens, stop = [op]) := by
        intro i us hi hts hlt
        obtain ⟨items, stop, hus, hitems, hstop⟩ := ih us.length hlt us rfl
        refine ⟨i :: items, stop, ?_, List.forall_mem_cons.2 ⟨hi, hitems⟩, hstop⟩
        rw [itemTokens, List.flatMap_cons, List.append_assoc, hts, hus]
        rfl
      cases ts with
      | nil => exact ⟨[], [], rfl, nofun, .inl nofun⟩
      | cons t ts =>
          by_cases hstop : t ∈ stopTokens
          · refine ⟨[], t :: ts, rfl, nofun, .inl fun u hu => ?_⟩
            cases hu
            exact hstop
          · by_cases hredir : t ∈ redirectionTokens
            · cases ts with
              | nil => exact ⟨[], [t], rfl, nofun, .inr ⟨t, hredir, rfl⟩⟩
              | cons file ts =>
                  refine hcons (.redirection t file) ts hredir rfl ?_
                  rw [List.length_cons, List.length_cons]
                  omega
            · by_cases hback : t = ['&']
              · exact hcons .background ts trivial (by rw [hback]; rfl) (by simp)
              · exact hcons (.arg t) ts ⟨hstop, hback, hredir⟩ rfl (by simp)

/-- The node of a simple command. -/
def itemNode (items : List Item) (next : Command) : Command :=
  .node { applyItems (.cleared .simple) items with
    args := some (itemArgs items), command := (itemArgs items).head? } next .null .null

/-- `parse_simple` on items and what is behind them. -/
theorem parseSimple_items {stop : List Token} (hne : itemTokens items ++ stop ≠ [])
    (hparen : (itemTokens items ++ stop).head? ≠ some ['(']) (h : ∀ i ∈ items, i.Ok) :
    (Ends stop → parseSimple (itemTokens items ++ stop) =
      if 64 ≤ (itemArgs items).length then .error .overflow
      else .ok (itemNode items .null, stop)) ∧
    (∀ op ∈ redirectionTokens, stop = [op] → parseSimple (itemTokens items ++ stop) =
      if 64 ≤ (itemArgs items).length then .error .overflow
      else .ok (itemNode items .null, [])) := by
  have hloop := simpleLoop_items (.cleared .simple) [] h stop
  obtain ⟨t, ts, hts⟩ := List.exists_cons_of_ne_nil hne
  rw [hts] at hparen hloop ⊢
  have ht : t ≠ ['('] := fun heq => hparen (by rw [heq]; rfl)
  rw [parseSimple, if_neg ht, hloop, List.nil_append]
  constructor
  · intro hends
    rw [simpleLoop_ends _ _ hends]
    rfl
  · rintro op hop rfl
    rw [simpleLoop_noFile _ _ hop]
    rfl

/-! ## The scanner -/

/-- A place of the parser in the tokens. -/
inductive Place where
  /-- In front of a command, and whether this is behind a `|`. -/
  | start (piped : Bool)
  /-- In a simple command, behind `n` arguments. -/
  | args (n : Nat)
  /-- There, behind a redirection operator. -/
  | file (n : Nat)
  /-- In a subshell with `n` open parentheses. -/
  | subshell (n : Nat)
  /-- Behind a subshell. -/
  | behind
  /-- There, behind a redirection operator. -/
  | behindFile
  /-- The parser has returned. -/
  | stopped
  /-- The arguments do not fit into their array. -/
  | full
  deriving DecidableEq

namespace Place

/-- The place behind an operator between commands, or behind another token that ends one. -/
def afterCommand (t : Token) : Place :=
  if t = ['|'] then start true
  else if t ∈ [[';'], ['&', '&'], ['|', '|']] then start false
  else stopped

/-- A token in a simple command. -/
def argument (n : Nat) (t : Token) : Place :=
  if t ∈ stopTokens then afterCommand t
  else if t = ['&'] then args n
  else if t ∈ redirectionTokens then file n
  else if n + 1 < 64 then args (n + 1) else full

/-- The place behind a token. -/
def next : Place → Token → Place
  | start _, t => if t = ['('] then subshell 1 else argument 0 t
  | args n, t => argument n t
  | file n, _ => args n
  | subshell n, t =>
      if t = ['('] then subshell (n + 1)
      else if t = [')'] then if n = 1 then behind else subshell (n - 1)
      else subshell n
  | behind, t => if t ∈ redirectionTokens then behindFile else afterCommand t
  | behindFile, _ => behind
  | stopped, _ => stopped
  | full, _ => full

/-- The line may end here. -/
def mayEnd : Place → Bool
  | start piped => !piped
  | full => false
  | _ => true

/-- The tokens go to a place where the line may end. -/
def Safe (p : Place) (ts : List Token) : Prop := (ts.foldl next p).mayEnd = true

instance (p : Place) (ts : List Token) : Decidable (p.Safe ts) :=
  inferInstanceAs (Decidable (_ = _))

theorem safe_append {p : Place} : p.Safe (ts ++ us) ↔ (ts.foldl next p).Safe us := by
  rw [Safe, List.foldl_append]
  rfl

theorem safe_cons {p : Place} : p.Safe (t :: ts) ↔ (p.next t).Safe ts := Iff.rfl

theorem safe_stopped (ts : List Token) : stopped.Safe ts := by
  induction ts with
  | nil => rfl
  | cons t ts ih => exact ih

theorem not_safe_full (ts : List Token) : ¬full.Safe ts := by
  induction ts with
  | nil => exact Bool.false_ne_true
  | cons t ts ih => exact ih

/-- Items are scanned like `parse_simple` reads them. -/
theorem safe_items {n : Nat} (hn : n < 64) (h : ∀ i ∈ items, i.Ok) (ts : List Token) :
    (args n).Safe (itemTokens items ++ ts) ↔
      n + (itemArgs items).length < 64 ∧ (args (n + (itemArgs items).length)).Safe ts := by
  induction items generalizing n with
  | nil => exact (and_iff_right hn).symm
  | cons i items ih =>
      obtain ⟨hi, hitems⟩ := List.forall_mem_cons.1 h
      have htokens : itemTokens (i :: items) ++ ts = i.tokens ++ (itemTokens items ++ ts) := by
        rw [itemTokens, List.flatMap_cons, List.append_assoc]
        rfl
      rw [htokens, safe_append]
      cases i with
      | arg t =>
          obtain ⟨hstop, hback, hredir⟩ := hi
          have hplace : [t].foldl next (args n) = if n + 1 < 64 then args (n + 1) else full := by
            rw [List.foldl_cons, List.foldl_nil, next, argument, if_neg hstop, if_neg hback,
              if_neg hredir]
          have hargs : (itemArgs (.arg t :: items)).length = (itemArgs items).length + 1 := rfl
          rw [show (Item.arg t).tokens = [t] from rfl, hplace, hargs]
          by_cases hlt : n + 1 < 64
          · rw [if_pos hlt, ih hlt hitems, Nat.add_right_comm, Nat.add_assoc]
          · rw [if_neg hlt]
            exact iff_of_false (not_safe_full _) fun hfew => by omega
      | background => exact ih hn hitems
      | redirection op file =>
          have hplace : [op, file].foldl next (args n) = args n := by
            simp only [Item.Ok, redirectionTokens, List.mem_cons, List.not_mem_nil, or_false] at hi
            rcases hi with rfl | rfl | rfl
            · rfl
            · rfl
            · rfl
          rw [show (Item.redirection op file).tokens = [op, file] from rfl, hplace]
          exact ih hn hitems

/-- Behind a simple command the scanner is where it is behind a subshell. -/
theorem safe_ends {n : Nat} (h : Ends ts) : (args n).Safe ts ↔ behind.Safe ts := by
  cases ts with
  | nil => exact Iff.rfl
  | cons t ts =>
      have ht := h t rfl
      have hredir : t ∉ redirectionTokens := by
        intro hredir
        simp only [redirectionTokens, List.mem_cons, List.not_mem_nil, or_false] at hredir
        rcases hredir with rfl | rfl | rfl <;> exact absurd ht (by decide)
      rw [safe_cons, safe_cons, next, next, argument, if_pos ht, if_neg hredir]

end Place

/-! ## Along the parser -/

/-- A part of the parser agrees with the scanner, which was at `p` in front of the tokens. -/
def Agrees (p : Place) (ts : List Token) (r : Except Wrong (Command × List Token)) : Prop :=
  match r with
  | .error _ => ¬p.Safe ts
  | .ok (cmd, rest) => (p.Safe ts ↔ Place.behind.Safe rest) ∧ rest <:+ ts ∧
      (cmd = .null → rest = []) ∧ ∀ t, rest.head? = some t → t ∉ redirectionTokens

theorem redirections_agrees (cmd : Fields) (ts : List Token) :
    (Place.behind.Safe ts ↔ Place.behind.Safe (redirections cmd ts).2) ∧
      (redirections cmd ts).2 <:+ ts ∧
      ∀ t, (redirections cmd ts).2.head? = some t → t ∉ redirectionTokens := by
  have hmem : ∀ {t : Token}, t ∈ redirectionTokens ↔ t = ['<'] ∨ t = ['>'] ∨ t = ['>', '>'] := by
    intro t
    simp [redirectionTokens]
  -- an operator and its file
  have hskip : ∀ {t file : Token} {ts : List Token}, t ∈ redirectionTokens →
      (Place.behind.Safe (t :: file :: ts) ↔ Place.behind.Safe ts) := by
    intro t file ts ht
    rw [Place.safe_cons, Place.next, if_pos ht]
    exact Iff.rfl
  fun_induction redirections cmd ts with
  | case1 => exact ⟨Iff.rfl, List.suffix_rfl, by simp⟩
  | case2 cmd t h =>
      refine ⟨?_, List.nil_suffix, by simp⟩
      rw [Place.safe_cons, Place.next, if_pos (hmem.2 h)]
      exact Iff.rfl
  | case3 cmd t h =>
      refine ⟨Iff.rfl, List.suffix_rfl, fun u hu => ?_⟩
      cases hu
      rwa [hmem]
  | case4 cmd file ts ih =>
      refine ⟨(hskip (by decide)).trans ih.1, ih.2.1.trans ⟨[['<'], file], rfl⟩, ih.2.2⟩
  | case5 cmd t file ts hlt h ih =>
      refine ⟨(hskip (hmem.2 (.inr h))).trans ih.1, ih.2.1.trans ⟨[t, file], rfl⟩, ih.2.2⟩
  | case6 cmd t file ts hlt h =>
      refine ⟨Iff.rfl, List.suffix_rfl, fun u hu => ?_⟩
      cases hu
      rw [hmem]
      exact not_or.2 ⟨hlt, h⟩

/-- Without a closing parenthesis the rest of the line is in the subshell. -/
theorem subshellLoop_none {n : Nat} {buffer : List Char} (hn : 1 ≤ n)
    (h : subshellLoop n buffer ts = none) : (Place.subshell n).Safe ts := by
  induction ts generalizing n buffer with
  | nil => rfl
  | cons t ts ih =>
      rw [subshellLoop] at h
      rw [Place.safe_cons, Place.next]
      by_cases hopen : t = ['(']
      · rw [if_pos hopen] at h ⊢
        exact ih (Nat.le_add_left 1 n) h
      · rw [if_neg hopen] at h ⊢
        by_cases hclose : t = [')'] ∧ n = 1
        · rw [if_pos hclose] at h
          cases h
        · rw [if_neg hclose] at h
          by_cases hparen : t = [')']
          · have hn1 : ¬n = 1 := fun heq => hclose ⟨hparen, heq⟩
            rw [if_pos hparen] at h ⊢
            rw [if_neg hn1]
            exact ih (by omega) h
          · rw [if_neg hparen] at h ⊢
            exact ih hn h

/-- The scanner leaves a subshell where its parentheses match. -/
theorem foldl_subshell {n : Nat} {inner : List Token} (hn : 1 ≤ n)
    (h : openBehind n inner = some 1) : inner.foldl Place.next (.subshell n) = .subshell 1 := by
  induction inner generalizing n with
  | nil =>
      cases h
      rfl
  | cons t inner ih =>
      rw [openBehind] at h
      rw [List.foldl_cons, Place.next]
      by_cases hopen : t = ['(']
      · rw [if_pos hopen] at h ⊢
        exact ih (Nat.le_add_left 1 n) h
      · rw [if_neg hopen] at h ⊢
        by_cases hparen : t = [')']
        · rw [if_pos hparen] at h ⊢
          by_cases hn1 : n ≤ 1
          · rw [if_pos hn1] at h
            cases h
          · rw [if_neg hn1] at h
            rw [if_neg (by omega)]
            exact ih (by omega) h
        · rw [if_neg hparen] at h ⊢
          exact ih hn h

theorem length_spaced (ts : List Token) :
    (spaced ts).length = (ts.map List.length).sum + ts.length := by
  induction ts with
  | nil => rfl
  | cons t ts ih =>
      rw [spaced, List.flatMap_cons, List.length_append, ← spaced, ih, List.length_append,
        List.map_cons, List.sum_cons, List.length_singleton, List.length_cons]
      omega

/-- The tokens fit into the buffer of a subshell. -/
def Fits (ts : List Token) : Prop := (ts.map List.length).sum + ts.length < 4096

theorem Fits.suffix (h : Fits ts) (hus : us <:+ ts) : Fits us := by
  obtain ⟨pre, rfl⟩ := hus
  rw [Fits, List.map_append, List.sum_append, List.length_append] at h
  rw [Fits]
  omega

theorem parseSubshell_agrees (hfits : Fits ts) :
    Agrees (.subshell 1) ts (parseSubshell ts) := by
  rw [parseSubshell]
  cases hloop : subshellLoop 1 [] ts with
  | none =>
      exact ⟨iff_of_true (subshellLoop_none (Nat.le_refl 1) hloop) rfl, List.nil_suffix,
        fun _ => rfl, by simp⟩
  | some r =>
      obtain ⟨text, us⟩ := r
      obtain ⟨inner, rfl, rfl, hinner⟩ := subshellLoop_some (Nat.le_refl 1) hloop
      have hshort : ¬4096 ≤ (spaced inner).length := by
        rw [length_spaced]
        rw [Fits, List.map_append, List.sum_append, List.length_append] at hfits
        omega
      simp only [List.nil_append]
      rw [if_neg hshort]
      obtain ⟨hsafe, hsuffix, hhead⟩ := redirections_agrees { Fields.cleared .simple with
          args := some [['s', 'h'], ['-', 'c'], spaced inner], command := some (spaced inner) } us
      refine ⟨?_, hsuffix.trans ⟨inner ++ [[')']], by simp⟩, by simp, hhead⟩
      rw [Place.safe_append, foldl_subshell (Nat.le_refl 1) hinner, ← hsafe]
      exact Iff.rfl

theorem parseSimple_agrees (hfits : Fits ts) (piped : Bool) (hts : ts = [] → piped = true) :
    Agrees (.start piped) ts (parseSimple ts) := by
  cases ts with
  | nil =>
      rw [hts rfl]
      exact Bool.false_ne_true
  | cons t ts =>
      by_cases hparen : t = ['(']
      · have hsub := parseSubshell_agrees (hfits.suffix (List.suffix_cons t ts))
        rw [parseSimple, if_pos hparen]
        have hplace : Place.next (.start piped) t = .subshell 1 := by rw [Place.next, if_pos hparen]
        cases hr : parseSubshell ts with
        | error e =>
            rw [hr] at hsub
            rw [Agrees, Place.safe_cons, hplace]
            exact hsub
        | ok r =>
            rw [hr] at hsub
            obtain ⟨hsafe, hsuffix, hnull⟩ := hsub
            refine ⟨?_, hsuffix.trans (List.suffix_cons t ts), hnull⟩
            rw [Place.safe_cons, hplace]
            exact hsafe
      · obtain ⟨items, stop, heq, hitems, hstop⟩ := items_cases (t :: ts)
        have hplace : (Place.start piped).Safe (t :: ts) ↔ (Place.args 0).Safe (t :: ts) := by
          rw [Place.safe_cons, Place.safe_cons, Place.next, if_neg hparen]
          exact Iff.rfl
        have hparse := parseSimple_items (by rw [← heq]; simp)
          (by rw [← heq]; simpa using hparen) hitems
        rw [← heq] at hparse
        have hscan := Place.safe_items (n := 0) (by decide) hitems stop
        rw [← heq, ← hplace, Nat.zero_add] at hscan
        rcases hstop with hends | ⟨op, hop, hstop⟩
        · rw [hparse.1 hends]
          split
          · rename_i hmany
            rw [Agrees, hscan]
            exact fun hfew => by omega
          · rename_i hfew
            refine ⟨?_, heq ▸ List.suffix_append _ _, by rintro ⟨⟩, fun u hu hredir => ?_⟩
            · rw [hscan, Place.safe_ends hends, and_iff_right (by omega)]
            · have hu := hends u hu
              simp only [redirectionTokens, List.mem_cons, List.not_mem_nil, or_false] at hredir
              rcases hredir with rfl | rfl | rfl <;> exact absurd hu (by decide)
        · rw [hparse.2 op hop hstop]
          split
          · rename_i hmany
            rw [Agrees, hscan]
            exact fun hfew => by omega
          · rename_i hfew
            refine ⟨?_, List.nil_suffix, by simp, by simp⟩
            rw [hscan, and_iff_right (by omega), hstop]
            simp only [redirectionTokens, List.mem_cons, List.not_mem_nil, or_false] at hop
            rcases hop with rfl | rfl | rfl <;> exact iff_of_true rfl rfl

theorem pipelineLoop_agrees (hfits : Fits ts) {fuel : Nat} (hfuel : ts.length < fuel)
    {current : Command} (hnull : current = .null → ts = [])
    (hhead : ∀ t, ts.head? = some t → t ∉ redirectionTokens) :
    Agrees .behind ts (pipelineLoop fuel current ts) ∧
      ∀ cmd rest, pipelineLoop fuel current ts = .ok (cmd, rest) → rest.head? ≠ some ['|'] := by
  induction fuel generalizing current ts with
  | zero => exact absurd hfuel (Nat.not_lt_zero _)
  | succ fuel ih =>
      rw [pipelineLoop.eq_def]
      dsimp only
      by_cases hpipe : ts.head? = some ['|']
      · rw [if_pos hpipe]
        cases ts with
        | nil => cases hpipe
        | cons t ts =>
            cases hpipe
            cases current with
            | null => exact absurd (hnull rfl) (by simp)
            | node fields next th el =>
                have hsuffix : ts <:+ ['|'] :: ts := List.suffix_cons _ _
                have hsimple := parseSimple_agrees (hfits.suffix hsuffix) true fun _ => rfl
                rw [List.tail_cons]
                cases hx : parseSimple ts with
                | error e =>
                    rw [hx] at hsimple
                    exact ⟨hsimple, by rintro _ _ ⟨⟩⟩
                | ok r =>
                    obtain ⟨next', us⟩ := r
                    rw [hx] at hsimple
                    obtain ⟨hsafe, hus, hnull', hhead'⟩ := hsimple
                    have hlen := hus.length_le
                    rw [List.length_cons] at hfuel
                    obtain ⟨hrest, hpiped⟩ := ih ((hfits.suffix hsuffix).suffix hus)
                      (by omega) hnull' hhead'
                    simp only [bind, Except.bind]
                    cases hy : pipelineLoop fuel next' us with
                    | error e =>
                        rw [hy] at hrest
                        exact ⟨fun hall => hrest (hsafe.1 hall), by simp⟩
                    | ok y =>
                        obtain ⟨next'', vs⟩ := y
                        rw [hy] at hrest hpiped
                        obtain ⟨hsafe', hvs, -, hhead''⟩ := hrest
                        refine ⟨⟨hsafe.trans hsafe', (hvs.trans hus).trans hsuffix, by simp,
                          hhead''⟩, fun cmd rest heq => ?_⟩
                        cases heq
                        exact hpiped _ _ rfl
      · rw [if_neg hpipe]
        refine ⟨⟨Iff.rfl, List.suffix_rfl, hnull, hhead⟩, fun cmd rest heq => ?_⟩
        cases heq
        exact hpipe

theorem parsePipeline_agrees (hfits : Fits ts) (hne : ts ≠ []) :
    Agrees (.start false) ts (parsePipeline ts) ∧
      ∀ cmd rest, parsePipeline ts = .ok (cmd, rest) → rest.head? ≠ some ['|'] := by
  have hsimple := parseSimple_agrees hfits false fun h => absurd h hne
  rw [parsePipeline]
  cases hx : parseSimple ts with
  | error e =>
      rw [hx] at hsimple
      exact ⟨hsimple, by rintro _ _ ⟨⟩⟩
  | ok r =>
      obtain ⟨head, us⟩ := r
      rw [hx] at hsimple
      obtain ⟨hsafe, hus, hnull, hhead⟩ := hsimple
      obtain ⟨hrest, hpiped⟩ := pipelineLoop_agrees (hfits.suffix hus) (Nat.lt_succ_self _) hnull
        hhead
      simp only [bind, Except.bind]
      refine ⟨?_, hpiped⟩
      cases hy : pipelineLoop (us.length + 1) head us with
      | error e =>
          rw [hy] at hrest
          exact fun hall => hrest (hsafe.1 hall)
      | ok y =>
          rw [hy] at hrest
          obtain ⟨hsafe', hvs, hrest⟩ := hrest
          exact ⟨hsafe.trans hsafe', hvs.trans hus, hrest⟩

/-- The rest of `parse_command`, behind a pipeline. -/
theorem parseCommand_cons (fuel : Nat) (t : Token) (ts : List Token) :
    parseCommand (fuel + 1) (t :: ts) = (parsePipeline (t :: ts)).bind fun r =>
      match [([';'], CommandType.sequence), (['&', '&'], .and), (['|', '|'], .or)].find?
          fun o => r.2.head? = some o.1 with
      | some (_, type) => (parseCommand fuel r.2.tail).map fun q =>
          (.node (.cleared type) .null r.1 q.1, q.2)
      | none => .ok r := by
  rw [parseCommand]
  cases parsePipeline (t :: ts) with
  | error e => rfl
  | ok r =>
      obtain ⟨cmd, rest⟩ := r
      simp only [bind, Except.bind, List.find?_cons, List.find?_nil]
      by_cases hseq : rest.head? = some [';']
      · simp only [hseq, if_true, decide_true]
        cases parseCommand fuel rest.tail <;> rfl
      · by_cases hand : rest.head? = some ['&', '&']
        · simp only [hand, if_true, decide_true, Option.some.injEq, List.cons.injEq]
          cases parseCommand fuel rest.tail <;> rfl
        · by_cases hor : rest.head? = some ['|', '|']
          · simp only [hor, if_true, decide_true, Option.some.injEq, List.cons.injEq]
            cases parseCommand fuel rest.tail <;> rfl
          · simp only [hseq, hand, hor, if_false, decide_false]
            rfl

theorem parseCommand_safe (hfits : Fits ts) {fuel : Nat} (hfuel : ts.length < fuel) :
    (∃ r, parseCommand fuel ts = .ok r) ↔ (Place.start false).Safe ts := by
  induction fuel generalizing ts with
  | zero => exact absurd hfuel (Nat.not_lt_zero _)
  | succ fuel ih =>
      cases ts with
      | nil => exact iff_of_true ⟨_, by rw [parseCommand.eq_def]⟩ rfl
      | cons t ts =>
          obtain ⟨hagrees, hpiped⟩ := parsePipeline_agrees hfits (List.cons_ne_nil t ts)
          rw [parseCommand_cons]
          cases hx : parsePipeline (t :: ts) with
          | error e =>
              rw [hx] at hagrees
              exact iff_of_false (by rintro ⟨_, ⟨⟩⟩) hagrees
          | ok r =>
              obtain ⟨cmd, rest⟩ := r
              rw [hx] at hagrees
              obtain ⟨hsafe, hrest, -, hhead⟩ := hagrees
              have hpipe := hpiped cmd rest hx
              rw [hsafe]
              simp only [Except.bind]
              cases hfind : [([';'], CommandType.sequence), (['&', '&'], .and),
                  (['|', '|'], .or)].find? fun o => rest.head? = some o.1 with
              | some o =>
                  obtain ⟨op, type⟩ := o
                  have hop := List.find?_some hfind
                  have hmem := List.mem_of_find?_eq_some hfind
                  simp only [decide_eq_true_eq] at hop
                  cases rest with
                  | nil => cases hop
                  | cons u us =>
                      cases hop
                      have hlen := hrest.length_le
                      rw [List.length_cons] at hlen
                      have hus : us <:+ t :: ts := (List.suffix_cons op us).trans hrest
                      have hplace : Place.next .behind op = .start false := by
                        simp only [List.mem_cons, Prod.mk.injEq, List.not_mem_nil, or_false]
                          at hmem
                        obtain ⟨rfl, -⟩ | ⟨rfl, -⟩ | ⟨rfl, -⟩ := hmem
                        · rfl
                        · rfl
                        · rfl
                      rw [Place.safe_cons, hplace, ← ih (hfits.suffix hus) (by omega),
                        List.tail_cons]
                      dsimp only
                      cases parseCommand fuel us with
                      | error e => exact iff_of_false (by rintro ⟨_, ⟨⟩⟩) (by simp)
                      | ok q => exact iff_of_true ⟨_, rfl⟩ ⟨_, rfl⟩
              | none =>
                  refine iff_of_true ⟨_, rfl⟩ ?_
                  cases rest with
                  | nil => rfl
                  | cons u us =>
                      have hnot := List.find?_eq_none.1 hfind
                      simp only [List.mem_cons, List.not_mem_nil, or_false, List.head?_cons,
                        Option.some.injEq, decide_eq_true_eq, forall_eq_or_imp, forall_eq] at hnot
                      have hplace : Place.next .behind u = .stopped := by
                        rw [Place.next, if_neg (hhead u rfl), Place.afterCommand,
                          if_neg fun heq => hpipe (by rw [heq]; rfl), if_neg (by simp [hnot])]
                      rw [Place.safe_cons, hplace]
                      exact Place.safe_stopped us

/-! ## Termination -/

/-- The loop of `parse_pipeline` takes a token each time. -/
theorem pipelineLoop_fuel (hfits : Fits ts) {m n : Nat} (hm : ts.length < m) (hn : ts.length < n)
    (current : Command) : pipelineLoop m current ts = pipelineLoop n current ts := by
  induction m generalizing n current ts with
  | zero => exact absurd hm (Nat.not_lt_zero _)
  | succ m ih =>
      obtain ⟨n, rfl⟩ := Nat.exists_eq_succ_of_ne_zero (Nat.ne_of_gt (Nat.zero_lt_of_lt hn))
      rw [pipelineLoop.eq_def, pipelineLoop.eq_def (n + 1)]
      dsimp only
      split
      · cases ts with
        | nil => contradiction
        | cons t ts =>
            have hsimple := parseSimple_agrees (hfits.suffix (List.suffix_cons t ts)) true
              fun _ => rfl
            cases current with
            | null => rfl
            | node fields next th el =>
                rw [List.tail_cons]
                cases hx : parseSimple ts with
                | error e => rfl
                | ok r =>
                    obtain ⟨next', us⟩ := r
                    rw [hx] at hsimple
                    have hus := hsimple.2.1
                    have hlen := hus.length_le
                    rw [List.length_cons] at hm hn
                    simp only [bind, Except.bind]
                    rw [ih (hfits.suffix (hus.trans (List.suffix_cons t ts))) (n := n)
                      (by omega) (by omega)]
      · rfl

/-- `parse_command` calls itself behind an operator that was taken. -/
theorem parseCommand_fuel (hfits : Fits ts) {m n : Nat} (hm : ts.length < m)
    (hn : ts.length < n) : parseCommand m ts = parseCommand n ts := by
  induction m generalizing n ts with
  | zero => exact absurd hm (Nat.not_lt_zero _)
  | succ m ih =>
      obtain ⟨n, rfl⟩ := Nat.exists_eq_succ_of_ne_zero (Nat.ne_of_gt (Nat.zero_lt_of_lt hn))
      cases ts with
      | nil => rw [parseCommand.eq_def, parseCommand.eq_def]
      | cons t ts =>
          have hagrees := (parsePipeline_agrees hfits (List.cons_ne_nil t ts)).1
          rw [parseCommand_cons, parseCommand_cons]
          cases hx : parsePipeline (t :: ts) with
          | error e => rfl
          | ok r =>
              obtain ⟨cmd, rest⟩ := r
              rw [hx] at hagrees
              have hrest := hagrees.2.1
              simp only [Except.bind]
              split
              · rename_i op type hfind
                have hop := List.find?_some hfind
                simp only [decide_eq_true_eq] at hop
                cases rest with
                | nil => cases hop
                | cons u us =>
                    have hlen := hrest.length_le
                    rw [List.length_cons] at hlen
                    rw [List.tail_cons, ih (hfits.suffix ((List.suffix_cons u us).trans hrest))
                      (n := n) (by omega) (by omega)]
              · rfl

/-! ## A line -/

theorem exists_lexes (s : List Char) : ∃ ts, Lexes s ts := by
  induction hn : s.length using Nat.strongRecOn generalizing s with
  | ind n ih =>
      subst hn
      cases hs : s.dropWhile isspace with
      | nil => exact ⟨[], .nil hs⟩
      | cons c p =>
          have hdrop := (List.dropWhile_suffix (l := s) isspace).length_le
          have hfirst := firstToken_length (p := p) (not_isspace hs)
          rw [hs, List.length_cons] at hdrop
          obtain ⟨ts, hts⟩ := ih _ (by omega) (firstToken (c :: p)).2 rfl
          exact ⟨_, .cons hs hts⟩

/-- A line that `read_input` returns has at most 255 tokens, which fit where they are put. -/
theorem tokenize_short (h : s.length ≤ 255) :
    ∃ ts, tokenize s = .ok ts ∧ Lexes s ts ∧ ts.length ≤ 255 ∧ Fits ts := by
  obtain ⟨ts, hlex⟩ := exists_lexes s
  obtain ⟨hcount, hsum⟩ := hlex.length
  refine ⟨ts, tokenize_iff.2 ⟨hlex, fun t ht => ?_, by omega⟩, hlex, by omega, ?_⟩
  · have := hlex.token_length t ht
    omega
  · rw [Fits]
    omega

/-- For a line of at most 255 characters `tokenize` stays in its bounds, and the loops end: with
more steps than there are characters or tokens left they do the same.  The parser stays in its
bounds if and only if the scanner comes to a place where the line may end: it does not end behind a
`|` that ends a command, and no simple command has more than 63 arguments. -/
theorem parser_safe_iff (line : List Char) (hline : line.length ≤ 255) :
    ∃ ts, tokenize line = .ok ts ∧ ts.length ≤ 255 ∧
      (∀ n, line.length < n → tokenizeLoop n line = .ok ts) ∧
      (∀ us, us <:+ ts → ∀ n, us.length < n →
        parseCommand n us = parseCommand (us.length + 1) us ∧
        ∀ current, pipelineLoop n current us = pipelineLoop (us.length + 1) current us) ∧
      ((∃ cmd, parseInput line = .ok cmd) ↔ (Place.start false).Safe ts) := by
  obtain ⟨ts, htokens, hlex, hfew, hfits⟩ := tokenize_short hline
  refine ⟨ts, htokens, hfew, fun n hn => ?_, fun us hus n hn => ⟨?_, fun current => ?_⟩, ?_⟩
  · exact (tokenizeLoop_iff hn).2 ⟨hlex, (tokenize_iff.1 htokens).2.1⟩
  · exact parseCommand_fuel (hfits.suffix hus) hn (Nat.lt_succ_self _)
  · exact pipelineLoop_fuel (hfits.suffix hus) hn (Nat.lt_succ_self _) current
  · rw [← parseCommand_safe hfits (Nat.lt_succ_self _), parseInput, htokens]
    simp only [bind, Except.bind]
    cases parseCommand (ts.length + 1) ts with
    | error e => exact iff_of_false (by simp) (by simp)
    | ok r => exact iff_of_true ⟨_, rfl⟩ ⟨_, rfl⟩

/-- `a|b`. -/
theorem parser_safe_pipe : ∃ cmd, parseInput ['a', '|', 'b'] = .ok cmd := by
  obtain ⟨ts, htokens, -, -, -, hiff⟩ := parser_safe_iff ['a', '|', 'b'] (by decide)
  rw [show tokenize ['a', '|', 'b'] = .ok [['a'], ['|'], ['b']] from rfl] at htokens
  cases htokens
  exact hiff.2 rfl

/-- `a|` reads through the null pointer behind the tokens. -/
theorem pipe_at_end : ['a', '|'].length ≤ 255 ∧ parseInput ['a', '|'] = .error .nullToken :=
  ⟨by decide, rfl⟩

end Xv6.User.Bash2

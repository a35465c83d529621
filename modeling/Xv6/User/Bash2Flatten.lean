import Xv6.User.Bash2Bounds

/-!
# What `bash2`'s parser keeps of a line

The tree that `parse_input` of `shell_lib/parser.c` returns, flattened again, against the tokens of
the line.  A tree never has more tokens than were read for it, so it has all of them if and only if
it has as many.

## Main results

* `parser_keeps_iff`: the tokens of a line without parentheses are those of its tree if and only if
  the line is made of simple commands that have each mark once and no keyword.
-/

namespace Xv6.User.Bash2

variable {t : Token} {ts us rest : List Token} {i : Item} {items : List Item}
  {cmd next : Command} {fields : Fields}

/-! ## Flattening a tree -/

/-- The redirections of a node and its `&`. -/
def Fields.extras (cmd : Fields) : List Item :=
  (cmd.inputFile.map (.redirection ['<'])).toList ++
    (cmd.outputFile.map (.redirection (if cmd.appendOutput then ['>', '>'] else ['>']))).toList ++
    if cmd.background then [.background] else []

/-- The redirections among items and the `&`. -/
def extrasOf (items : List Item) : List Item := items.filter fun i => i.arg?.isNone

/-- The tokens of a simple command. -/
def Fields.tokens (cmd : Fields) : List Token := cmd.args.getD [] ++ itemTokens cmd.extras

/-- The null pointer. -/
def Command.isNull : Command → Bool
  | .null => true
  | .node _ _ _ _ => false

/-- The operator of a node that has branches. -/
def operatorOf : CommandType → Token
  | .and => ['&', '&']
  | .or => ['|', '|']
  | _ => [';']

/-- The tokens of a tree, with the redirections of a simple command behind its arguments. -/
def flatten : Command → List Token
  | .null => []
  | .node cmd next th el =>
      if cmd.type = .simple then
        cmd.tokens ++ if next.isNull then [] else ['|'] :: flatten next
      else flatten th ++ operatorOf cmd.type :: flatten el

/-- The tokens are those of a simple command, up to the position of its redirections and `&`. -/
def YieldsSimple (cmd : Fields) (ts : List Token) : Prop :=
  ∃ items, ts = itemTokens items ∧ itemArgs items = cmd.args.getD [] ∧
    (extrasOf items).Perm cmd.extras

/-- The tokens are those of the tree, up to the position of redirections and `&` in simple
commands. -/
def Yields : Command → List Token → Prop
  | .null, ts => ts = []
  | .node cmd next th el, ts =>
      if cmd.type = .simple then
        ∃ us vs, ts = us ++ vs ∧ YieldsSimple cmd us ∧
          if next.isNull then vs = [] else ∃ ws, vs = ['|'] :: ws ∧ Yields next ws
      else ∃ us vs, ts = us ++ operatorOf cmd.type :: vs ∧ Yields th us ∧ Yields el vs

theorem itemTokens_length (items : List Item) : (itemTokens items).length =
    (itemArgs items).length + (itemTokens (extrasOf items)).length := by
  induction items with
  | nil => rfl
  | cons i items ih =>
      rw [itemTokens, List.flatMap_cons, List.length_append, ← itemTokens, ih]
      cases i with
      | arg t =>
          have hargs : itemArgs (.arg t :: items) = t :: itemArgs items := rfl
          have hextras : extrasOf (.arg t :: items) = extrasOf items := rfl
          rw [hargs, hextras, List.length_cons, Item.tokens, List.length_singleton]
          omega
      | background =>
          have hargs : itemArgs (.background :: items) = itemArgs items := rfl
          have hextras : itemTokens (extrasOf (.background :: items)) =
            ['&'] :: itemTokens (extrasOf items) := rfl
          rw [hargs, hextras, List.length_cons, Item.tokens, List.length_singleton]
          omega
      | redirection op file =>
          have hargs : itemArgs (.redirection op file :: items) = itemArgs items := rfl
          have hextras : itemTokens (extrasOf (.redirection op file :: items)) =
            op :: file :: itemTokens (extrasOf items) := rfl
          rw [hargs, hextras, List.length_cons, List.length_cons, Item.tokens, List.length_cons,
            List.length_singleton]
          omega

theorem YieldsSimple.length (h : YieldsSimple fields ts) : ts.length = fields.tokens.length := by
  obtain ⟨items, rfl, hargs, hextras⟩ := h
  rw [itemTokens_length, hargs, Fields.tokens, List.length_append, itemTokens, itemTokens,
    (hextras.flatMap_right Item.tokens).length_eq]

/-- A tree has as many tokens as it yields. -/
theorem Yields.length (h : Yields cmd ts) : ts.length = (flatten cmd).length := by
  induction cmd generalizing ts with
  | null =>
      rw [h]
      rfl
  | node fields next th el ihnext ihth ihel =>
      rw [Yields] at h
      rw [flatten]
      split at h
      · obtain ⟨us, vs, rfl, hus, hvs⟩ := h
        rename_i htype
        rw [if_pos htype, List.length_append, List.length_append, hus.length]
        split at hvs
        · rename_i hnull
          rw [if_pos hnull, hvs]
        · rename_i hnull
          obtain ⟨ws, rfl, hws⟩ := hvs
          rw [if_neg hnull, List.length_cons, List.length_cons, ihnext hws]
      · obtain ⟨us, vs, rfl, hus, hvs⟩ := h
        rename_i htype
        rw [if_neg htype, List.length_append, List.length_append, List.length_cons,
          List.length_cons, ihth hus, ihel hvs]

/-! ## Lines that are kept -/

namespace Item

/-- `&`. -/
def isBackground : Item → Bool
  | background => true
  | _ => false

/-- `<` and its file. -/
def isInput : Item → Bool
  | redirection op _ => op = ['<']
  | _ => false

/-- `>` or `>>` and its file. -/
def isOutput : Item → Bool
  | redirection op _ => op = ['>'] ∨ op = ['>', '>']
  | _ => false

end Item

/-- A simple command: no argument is a keyword, and it has at most one `&`, one file to read from
and one to write to. -/
structure Single (items : List Item) : Prop where
  ok : ∀ i ∈ items, i.Ok
  background : items.countP Item.isBackground ≤ 1
  input : items.countP Item.isInput ≤ 1
  output : items.countP Item.isOutput ≤ 1

/-- The operators between simple commands. -/
def separators : List Token := [['|'], [';'], ['&', '&'], ['|', '|']]

/-- Simple commands with operators between them. -/
inductive Kept : List Token → Prop
  | last {items : List Item} (h : Single items) : Kept (itemTokens items)
  | more {items : List Item} {op : Token} {ts : List Token} (h : Single items)
      (hop : op ∈ separators) (hts : Kept ts) : Kept (itemTokens items ++ op :: ts)

/-- What may be behind a simple command of such a line. -/
def Rest (ts : List Token) : Prop := ts = [] ∨ ∃ op us, op ∈ separators ∧ ts = op :: us ∧ Kept us

theorem Kept.cases (h : Kept ts) :
    ∃ items us, Single items ∧ ts = itemTokens items ++ us ∧ Rest us := by
  cases h with
  | last h => exact ⟨_, [], h, (List.append_nil _).symm, .inl rfl⟩
  | more h hop hts => exact ⟨_, _, h, rfl, .inr ⟨_, _, hop, rfl, hts⟩⟩

theorem Kept.append (h : Kept ts) {op : Token} (hop : op ∈ separators) (hus : Kept us) :
    Kept (ts ++ op :: us) := by
  induction h with
  | last h => exact .more h hop hus
  | more h hop' _ ih =>
      rw [List.append_assoc]
      exact .more h hop' ih

theorem kept_nil : Kept [] := by
  have hsingle : Single [] := ⟨nofun, by decide, by decide, by decide⟩
  exact .last hsingle

theorem Rest.ends (h : Rest ts) : Ends ts := by
  intro t ht
  rcases h with rfl | ⟨op, us, hop, rfl, -⟩
  · cases ht
  · cases ht
    simp only [separators, List.mem_cons, List.not_mem_nil, or_false] at hop
    rcases hop with rfl | rfl | rfl | rfl <;> decide

/-! ## One simple command -/

/-- How many tokens the redirections of a node and its `&` have. -/
theorem length_extras (cmd : Fields) : (itemTokens cmd.extras).length =
    2 * cmd.inputFile.toList.length + 2 * cmd.outputFile.toList.length + cmd.background.toNat := by
  cases hin : cmd.inputFile <;> cases hout : cmd.outputFile <;> cases hback : cmd.background <;>
    simp [Fields.extras, hin, hout, hback, itemTokens, Item.tokens]

/-- Items add at most their redirections and `&`, and no fewer only if each mark is there once. -/
theorem applyItems_length (cmd : Fields) (h : ∀ i ∈ items, i.Ok) :
    (itemTokens (applyItems cmd items).extras).length ≤
      (itemTokens cmd.extras).length + (itemTokens (extrasOf items)).length ∧
    ((itemTokens cmd.extras).length + (itemTokens (extrasOf items)).length ≤
        (itemTokens (applyItems cmd items).extras).length →
      items.countP Item.isBackground + cmd.background.toNat ≤ 1 ∧
      items.countP Item.isInput + cmd.inputFile.toList.length ≤ 1 ∧
      items.countP Item.isOutput + cmd.outputFile.toList.length ≤ 1) := by
  have hone : ∀ {α : Type} (o : Option α), o.toList.length ≤ 1 := by
    intro α o
    cases o <;> simp
  induction items generalizing cmd with
  | nil =>
      have hback := Bool.toNat_le cmd.background
      have hin := hone cmd.inputFile
      have hout := hone cmd.outputFile
      refine ⟨Nat.le_add_right _ _, fun _ => ?_⟩
      rw [List.countP_nil, List.countP_nil, List.countP_nil]
      omega
  | cons i items ih =>
      obtain ⟨hi, hitems⟩ := List.forall_mem_cons.1 h
      have hstep := ih (i.apply cmd) hitems
      rw [show applyItems cmd (i :: items) = applyItems (i.apply cmd) items from rfl]
      rw [length_extras (i.apply cmd)] at hstep
      rw [length_extras cmd]
      generalize (itemTokens (applyItems (i.apply cmd) items).extras).length = total at hstep ⊢
      cases i with
      | arg t => exact hstep
      | background =>
          have hextras : (itemTokens (extrasOf (.background :: items))).length =
            (itemTokens (extrasOf items)).length + 1 := rfl
          have hcount : (Item.background :: items).countP Item.isBackground =
            items.countP Item.isBackground + 1 := List.countP_cons_of_pos rfl
          have hin : (Item.background :: items).countP Item.isInput =
            items.countP Item.isInput := List.countP_cons_of_neg Bool.false_ne_true
          have hout : (Item.background :: items).countP Item.isOutput =
            items.countP Item.isOutput := List.countP_cons_of_neg Bool.false_ne_true
          have hback := Bool.toNat_le cmd.background
          simp only [Item.apply, Bool.toNat_true] at hstep
          rw [hextras, hcount, hin, hout]
          omega
      | redirection op file =>
          have hextras : (itemTokens (extrasOf (.redirection op file :: items))).length =
            (itemTokens (extrasOf items)).length + 2 := rfl
          have hback : (Item.redirection op file :: items).countP Item.isBackground =
            items.countP Item.isBackground := List.countP_cons_of_neg Bool.false_ne_true
          have hin := hone cmd.inputFile
          have hout := hone cmd.outputFile
          rw [hextras, hback]
          simp only [Item.Ok, redirectionTokens, List.mem_cons, List.not_mem_nil, or_false] at hi
          rcases hi with rfl | hi
          · simp only [Item.apply, if_true, Option.toList_some, List.length_singleton] at hstep
            have hnot : (Item.redirection ['<'] file).isOutput = false := by
              rw [Item.isOutput, decide_eq_false_iff_not]
              decide
            rw [List.countP_cons_of_pos rfl, List.countP_cons_of_neg (Bool.eq_false_iff.1 hnot)]
            omega
          · have hlt : op ≠ ['<'] := by
              rcases hi with rfl | rfl <;> decide
            simp only [Item.apply, if_neg hlt, Option.toList_some, List.length_singleton] at hstep
            rw [List.countP_cons_of_neg (by simpa [Item.isInput] using hlt),
              List.countP_cons_of_pos (by simpa [Item.isOutput] using hi)]
            omega

/-- With each mark there once the node keeps them all. -/
theorem applyItems_extras (cmd : Fields) (h : ∀ i ∈ items, i.Ok)
    (hback : items.countP Item.isBackground + cmd.background.toNat ≤ 1)
    (hin : items.countP Item.isInput + cmd.inputFile.toList.length ≤ 1)
    (hout : items.countP Item.isOutput + cmd.outputFile.toList.length ≤ 1) :
    (cmd.extras ++ extrasOf items).Perm (applyItems cmd items).extras := by
  induction items generalizing cmd with
  | nil => rw [show extrasOf [] = [] from rfl, List.append_nil]; exact .refl _
  | cons i items ih =>
      obtain ⟨hi, hitems⟩ := List.forall_mem_cons.1 h
      rw [List.countP_cons] at hback hin hout
      -- one item more in the node
      have hstep : i.arg?.isNone → (cmd.extras ++ [i]).Perm (i.apply cmd).extras →
          (i.apply cmd).background.toNat ≤
            cmd.background.toNat + (if i.isBackground then 1 else 0) →
          (i.apply cmd).inputFile.toList.length ≤
            cmd.inputFile.toList.length + (if i.isInput then 1 else 0) →
          (i.apply cmd).outputFile.toList.length ≤
            cmd.outputFile.toList.length + (if i.isOutput then 1 else 0) →
          (cmd.extras ++ extrasOf (i :: items)).Perm (applyItems cmd (i :: items)).extras := by
        intro hnone hone hb hn ho
        have hcons : extrasOf (i :: items) = i :: extrasOf items :=
          List.filter_cons_of_pos hnone
        rw [hcons, List.append_cons]
        exact (hone.append_right _).trans
          (ih (i.apply cmd) hitems (by omega) (by omega) (by omega))
      cases i with
      | arg t => exact ih cmd hitems hback hin hout
      | background =>
          have hfalse : cmd.background = false := by
            cases hb : cmd.background
            · rfl
            · simp [Item.isBackground, hb] at hback
          refine hstep rfl ?_ (by simp [Item.apply, Item.isBackground])
            (Nat.le_refl _) (Nat.le_refl _)
          have hextras : (Item.background.apply cmd).extras = cmd.extras ++ [.background] := by
            rw [Fields.extras, Fields.extras, hfalse, if_neg Bool.false_ne_true, List.append_nil]
            rfl
          rw [hextras]
      | redirection op file =>
          simp only [Item.Ok, redirectionTokens, List.mem_cons, List.not_mem_nil, or_false] at hi
          rcases hi with rfl | hi
          · have hnone : cmd.inputFile = none := by
              cases hn : cmd.inputFile
              · rfl
              · simp [Item.isInput, hn] at hin
            refine hstep rfl ?_ (Nat.le_refl _) (by simp [Item.apply, Item.isInput])
              (by simp [Item.apply])
            simp only [Fields.extras, Item.apply, hnone, if_true, Option.map_none,
              Option.toList_none, List.nil_append, Option.map_some, Option.toList_some,
              List.cons_append]
            exact List.perm_append_singleton _ _
          · have hlt : op ≠ ['<'] := by
              rcases hi with rfl | rfl <;> decide
            have hnone : cmd.outputFile = none := by
              cases hn : cmd.outputFile
              · rfl
              · simp [Item.isOutput, hn, hi] at hout
            have hop : (if decide (op = ['>', '>']) = true then ['>', '>'] else ['>']) = op := by
              rcases hi with rfl | rfl <;> rfl
            refine hstep rfl ?_ (by simp [Item.apply, hlt]) (by simp [Item.apply, hlt])
              (by simp [Item.apply, hlt, Item.isOutput, hi])
            simp only [Fields.extras, Item.apply, if_neg hlt, hnone, hop, Option.map_none,
              Option.toList_none, List.append_nil, Option.map_some, Option.toList_some,
              List.append_assoc]
            exact List.Perm.append_left _ List.perm_append_comm

/-- The node of a simple command, without its place in the line. -/
def itemFields (items : List Item) : Fields :=
  { applyItems (.cleared .simple) items with
    args := some (itemArgs items), command := (itemArgs items).head? }

theorem type_applyItems (cmd : Fields) (items : List Item) :
    (applyItems cmd items).type = cmd.type := by
  induction items generalizing cmd with
  | nil => rfl
  | cons i items ih =>
      refine (ih (i.apply cmd)).trans ?_
      cases i with
      | arg t => rfl
      | background => rfl
      | redirection op file =>
          rw [Item.apply]
          split <;> rfl

/-- A node has no more tokens than its items, and as many only if each mark is there once. -/
theorem itemFields_length (h : ∀ i ∈ items, i.Ok) :
    (itemFields items).tokens.length ≤ (itemTokens items).length ∧
      ((itemTokens items).length ≤ (itemFields items).tokens.length → Single items) := by
  have hextras := applyItems_length (.cleared .simple) h
  have hcleared : (itemTokens (Fields.cleared .simple).extras).length = 0 := rfl
  have htokens : (itemFields items).tokens.length = (itemArgs items).length +
      (itemTokens (applyItems (.cleared .simple) items).extras).length := by
    rw [Fields.tokens, List.length_append]
    rfl
  rw [hcleared, Nat.zero_add] at hextras
  rw [htokens, itemTokens_length items]
  refine ⟨by omega, fun hle => ?_⟩
  obtain ⟨hback, hin, hout⟩ := hextras.2 (by omega)
  exact ⟨h, hback, hin, hout⟩

theorem yieldsSimple_items (h : Single items) :
    YieldsSimple (itemFields items) (itemTokens items) :=
  ⟨items, rfl, rfl, applyItems_extras (.cleared .simple) h.ok h.background h.input h.output⟩

/-- What `parse_simple` makes of tokens: a simple command that has no more tokens than were read, as
many only if these are kept; and of a line that is kept it yields the first command. -/
theorem parseSimple_part (hparen : ['('] ∉ ts) (h : parseSimple ts = .ok (cmd, rest)) :
    ∃ fields us, cmd = .node fields .null .null .null ∧ fields.type = .simple ∧ ts = us ++ rest ∧
      fields.tokens.length ≤ us.length ∧
      (us.length ≤ fields.tokens.length → ∃ items, Single items ∧ us = itemTokens items) ∧
      (Kept ts → Rest rest ∧ YieldsSimple fields us) := by
  have hne : ts ≠ [] := by
    rintro rfl
    cases h
  have hhead : ∀ {us}, ts = us → us.head? ≠ some ['('] := by
    rintro us rfl heq
    exact hparen (List.mem_of_head? heq)
  -- on a line that is kept the items are those of its first command
  have hkept : Kept ts → ∃ items, Single items ∧ ts = itemTokens items ++ rest ∧ Rest rest ∧
      cmd = itemNode items .null := by
    intro hts
    obtain ⟨items, us, hitems, rfl, hus⟩ := hts.cases
    rw [(parseSimple_items hne (hhead rfl) hitems.ok).1 hus.ends] at h
    split at h
    · cases h
    · cases h
      exact ⟨items, hitems, rfl, hus, rfl⟩
  obtain ⟨items, stop, heq, hitems, hstop⟩ := items_cases ts
  obtain ⟨hle, hsingle⟩ := itemFields_length hitems
  have hparse := parseSimple_items (heq ▸ hne) (hhead heq) hitems
  rw [← heq] at hparse
  -- with the tokens that were read
  have hresult : cmd = itemNode items .null → ∀ us, ts = us ++ rest →
      (us.length ≤ (itemTokens items).length → us = itemTokens items) →
      (itemTokens items).length ≤ us.length →
      ∃ fields us, cmd = .node fields .null .null .null ∧ fields.type = .simple ∧
        ts = us ++ rest ∧ fields.tokens.length ≤ us.length ∧
        (us.length ≤ fields.tokens.length → ∃ items, Single items ∧ us = itemTokens items) ∧
        (Kept ts → Rest rest ∧ YieldsSimple fields us) := by
    intro hcmd us hus hsame hge
    refine ⟨itemFields items, us, hcmd, type_applyItems _ _, hus, by omega,
      fun hlen => ⟨items, hsingle (by omega), hsame (by omega)⟩, fun hts => ?_⟩
    obtain ⟨items', hitems', hts', hrest, hcmd'⟩ := hkept hts
    obtain rfl : us = itemTokens items' := List.append_cancel_right (hus.symm.trans hts')
    rw [hcmd] at hcmd'
    have hfields : itemFields items = itemFields items' := (Command.node.inj hcmd').1
    rw [hfields]
    exact ⟨hrest, yieldsSimple_items hitems'⟩
  rcases hstop with hends | ⟨op, hop, hstop⟩
  · rw [hparse.1 hends] at h
    split at h
    · cases h
    · cases h
      exact hresult rfl _ heq (fun _ => rfl) (Nat.le_refl _)
  · rw [hparse.2 op hop hstop] at h
    split at h
    · cases h
    · cases h
      have hlen := congrArg List.length heq
      rw [List.length_append, hstop, List.length_singleton] at hlen
      exact hresult rfl ts (List.append_nil ts).symm (fun hle => by omega) (by omega)

/-! ## Pipelines and lines -/

/-- The part of a tree for the tokens `ts`: it has no more tokens, and as many only if they are
kept. -/
def Part (cmd : Command) (ts : List Token) : Prop :=
  (flatten cmd).length ≤ ts.length ∧ (ts.length ≤ (flatten cmd).length → Kept ts)

/-- What may be behind a simple command of a pipeline. -/
def PipePart (fields : Fields) (us ts : List Token) (cmd : Command) (rest : List Token) : Prop :=
  ∃ next vs, cmd = .node fields next .null .null ∧ ts = vs ++ rest ∧ rest.head? ≠ some ['|'] ∧
    (Rest ts → Rest rest) ∧
    ((us.length ≤ fields.tokens.length → ∃ items, Single items ∧ us = itemTokens items) →
      Part cmd (us ++ vs)) ∧
    (Rest ts → YieldsSimple fields us → Yields cmd (us ++ vs))

theorem pipelineLoop_part {fuel : Nat} (us : List Token) (hfuel : ts.length < fuel)
    (hparen : ['('] ∉ ts)
    (htype : fields.type = .simple) (hle : fields.tokens.length ≤ us.length)
    (h : pipelineLoop fuel (.node fields .null .null .null) ts = .ok (cmd, rest)) :
    PipePart fields us ts cmd rest := by
  induction fuel generalizing ts us fields cmd rest with
  | zero => exact absurd hfuel (Nat.not_lt_zero _)
  | succ fuel ih =>
      rw [pipelineLoop.eq_def] at h
      dsimp only at h
      by_cases hpipe : ts.head? = some ['|']
      · rw [if_pos hpipe] at h
        cases ts with
        | nil => cases hpipe
        | cons t ts =>
            cases hpipe
            have hparen' : ['('] ∉ ts := fun hin => hparen (List.mem_cons_of_mem _ hin)
            rw [List.tail_cons] at h
            cases hx : parseSimple ts with
            | error e =>
                rw [hx] at h
                cases h
            | ok r =>
                obtain ⟨next, vs⟩ := r
                obtain ⟨fields', us', rfl, htype', rfl, hle', hitems', hyields'⟩ :=
                  parseSimple_part hparen' hx
                rw [hx] at h
                simp only [bind, Except.bind] at h
                cases hy : pipelineLoop fuel (.node fields' .null .null .null) vs with
                | error e =>
                    rw [hy] at h
                    cases h
                | ok y =>
                    obtain ⟨next', ws⟩ := y
                    rw [hy] at h
                    cases h
                    rw [List.length_cons, List.length_append] at hfuel
                    obtain ⟨next'', xs, rfl, rfl, hhead, hrest, hpart, hall⟩ := ih us'
                      (by omega) (fun hin => hparen' (List.mem_append_right _ hin)) htype' hle' hy
                    have hflatten : flatten (.node fields (.node fields' next'' .null .null) .null
                        .null) = fields.tokens ++
                          ['|'] :: flatten (.node fields' next'' .null .null) := by
                      rw [flatten, if_pos htype]
                      rfl
                    refine ⟨_, ['|'] :: (us' ++ xs), rfl, by simp, hhead, fun hts => ?_,
                      fun hus => ⟨?_, fun hge => ?_⟩, fun hts hus => ?_⟩
                    · obtain hnil | ⟨op, ts, -, heq, hkept⟩ := hts
                      · cases hnil
                      · cases heq
                        exact hrest (hyields' hkept).1
                    · have hlen := (hpart hitems').1
                      rw [hflatten, List.length_append, List.length_append, List.length_cons,
                        List.length_cons]
                      omega
                    · have hlen := (hpart hitems').1
                      rw [hflatten, List.length_append, List.length_append, List.length_cons,
                        List.length_cons] at hge
                      obtain ⟨items, hitems, rfl⟩ := hus (by omega)
                      exact .more hitems (by decide) ((hpart hitems').2 (by omega))
                    · obtain hnil | ⟨op, ts, -, heq, hkept⟩ := hts
                      · cases hnil
                      · cases heq
                        obtain ⟨hvs, hfirst⟩ := hyields' hkept
                        rw [Yields, if_pos htype]
                        exact ⟨us, _, rfl, hus, _, rfl, hall hvs hfirst⟩
      · rw [if_neg hpipe] at h
        cases h
        have hflatten : flatten (.node fields .null .null .null) = fields.tokens := by
          rw [flatten, if_pos htype]
          exact List.append_nil _
        refine ⟨.null, [], rfl, rfl, hpipe, id, fun hus => ⟨?_, fun hge => ?_⟩, fun _ hus => ?_⟩
        · rw [hflatten, List.append_nil]
          exact hle
        · rw [hflatten, List.append_nil] at hge
          obtain ⟨items, hitems, rfl⟩ := hus hge
          rw [List.append_nil]
          exact .last hitems
        · rw [Yields, if_pos htype]
          exact ⟨us, [], rfl, hus, rfl⟩

theorem parsePipeline_part (hparen : ['('] ∉ ts) (h : parsePipeline ts = .ok (cmd, rest)) :
    ∃ us, ts = us ++ rest ∧ rest.head? ≠ some ['|'] ∧ Part cmd us ∧
      (Kept ts → Rest rest ∧ Yields cmd us) := by
  rw [parsePipeline] at h
  cases hx : parseSimple ts with
  | error e =>
      rw [hx] at h
      cases h
  | ok r =>
      obtain ⟨head, vs⟩ := r
      obtain ⟨fields, us, rfl, htype, rfl, hle, hitems, hyields⟩ := parseSimple_part hparen hx
      rw [hx] at h
      obtain ⟨next, ws, rfl, rfl, hhead, hrest, hpart, hall⟩ := pipelineLoop_part us
        (Nat.lt_succ_self _) (fun hin => hparen (List.mem_append_right _ hin)) htype hle h
      refine ⟨us ++ ws, (List.append_assoc _ _ _).symm, hhead, hpart hitems, fun hkept => ?_⟩
      obtain ⟨hvs, hus⟩ := hyields hkept
      exact ⟨hrest hvs, hall hvs hus⟩

theorem parseCommand_part {fuel : Nat} (hfuel : ts.length < fuel) (hparen : ['('] ∉ ts)
    (h : parseCommand fuel ts = .ok (cmd, rest)) :
    Part cmd ts ∧ (Kept ts → Yields cmd ts) := by
  induction fuel generalizing ts cmd rest with
  | zero => exact absurd hfuel (Nat.not_lt_zero _)
  | succ fuel ih =>
      cases ts with
      | nil =>
          rw [parseCommand.eq_def] at h
          cases h
          exact ⟨⟨Nat.le_refl _, fun _ => kept_nil⟩, fun _ => rfl⟩
      | cons t ts =>
          rw [parseCommand_cons] at h
          cases hx : parsePipeline (t :: ts) with
          | error e =>
              rw [hx] at h
              cases h
          | ok r =>
              obtain ⟨first, vs⟩ := r
              obtain ⟨us, heq, hhead, hpart, hkept⟩ := parsePipeline_part hparen hx
              rw [hx] at h
              simp only [Except.bind] at h
              cases hfind : [([';'], CommandType.sequence), (['&', '&'], .and),
                  (['|', '|'], .or)].find? fun o => vs.head? = some o.1 with
              | some o =>
                  obtain ⟨op, type⟩ := o
                  have hop := List.find?_some hfind
                  have hmem := List.mem_of_find?_eq_some hfind
                  simp only [decide_eq_true_eq] at hop
                  cases vs with
                  | nil => cases hop
                  | cons u vs =>
                      cases hop
                      have htype : type ≠ .simple ∧ operatorOf type = op ∧ op ∈ separators := by
                        simp only [List.mem_cons, Prod.mk.injEq, List.not_mem_nil, or_false]
                          at hmem
                        obtain ⟨rfl, rfl⟩ | ⟨rfl, rfl⟩ | ⟨rfl, rfl⟩ := hmem
                        · exact ⟨by simp, rfl, by decide⟩
                        · exact ⟨by simp, rfl, by decide⟩
                        · exact ⟨by simp, rfl, by decide⟩
                      rw [hfind, List.tail_cons] at h
                      have hlen := congrArg List.length heq
                      rw [List.length_append, List.length_cons, List.length_cons] at hlen
                      rw [List.length_cons] at hfuel
                      rw [heq] at hparen
                      cases hy : parseCommand fuel vs with
                      | error e =>
                          rw [hy] at h
                          cases h
                      | ok y =>
                          obtain ⟨second, ws⟩ := y
                          rw [hy] at h
                          cases h
                          obtain ⟨hrest, hyields⟩ := ih (by omega)
                            (fun hin => hparen (by simp [hin])) hy
                          have hflatten : flatten (.node (.cleared type) .null first second) =
                              flatten first ++ op :: flatten second := by
                            rw [← htype.2.1]
                            exact if_neg htype.1
                          rw [heq]
                          refine ⟨⟨?_, fun hge => ?_⟩, fun hts => ?_⟩
                          · have h1 := hpart.1
                            have h2 := hrest.1
                            rw [hflatten, List.length_append, List.length_append,
                              List.length_cons, List.length_cons]
                            omega
                          · have h1 := hpart.1
                            have h2 := hrest.1
                            rw [hflatten, List.length_append, List.length_append,
                              List.length_cons, List.length_cons] at hge
                            exact (hpart.2 (by omega)).append htype.2.2 (hrest.2 (by omega))
                          · obtain ⟨hvs, hus⟩ := hkept (heq ▸ hts)
                            obtain hnil | ⟨op', vs', -, heq', hvs'⟩ := hvs
                            · cases hnil
                            · cases heq'
                              have hnode : Yields (.node (.cleared type) .null first second) =
                                  fun ts => ∃ us vs, ts = us ++ operatorOf type :: vs ∧
                                    Yields first us ∧ Yields second vs :=
                                funext fun _ => if_neg htype.1
                              rw [hnode]
                              exact ⟨us, vs, by rw [htype.2.1], hus, hyields hvs'⟩
              | none =>
                  rw [hfind] at h
                  cases h
                  have hnot := List.find?_eq_none.1 hfind
                  simp only [List.mem_cons, List.not_mem_nil, or_false, decide_eq_true_eq,
                    forall_eq_or_imp, forall_eq] at hnot
                  have hlen := congrArg List.length heq
                  rw [List.length_append] at hlen
                  refine ⟨⟨by have := hpart.1; omega, fun hge => ?_⟩, fun hts => ?_⟩
                  · have hsize := hpart.1
                    obtain rfl : rest = [] := List.eq_nil_of_length_eq_zero (by omega)
                    rw [heq, List.append_nil]
                    rw [List.append_nil] at heq
                    exact hpart.2 (by rw [← heq]; exact hge)
                  · obtain ⟨hvs, hus⟩ := hkept hts
                    obtain rfl | ⟨op, vs', hop, rfl, -⟩ := hvs
                    · rw [heq, List.append_nil]
                      exact hus
                    · simp only [separators, List.mem_cons, List.not_mem_nil, or_false] at hop
                      rcases hop with rfl | rfl | rfl | rfl
                      · exact absurd rfl hhead
                      · exact absurd rfl hnot.1
                      · exact absurd rfl hnot.2.1
                      · exact absurd rfl hnot.2.2

/-- Without parentheses in the line there are none in its tokens. -/
theorem Lexes.no_paren {s : List Char} (h : Lexes s ts) (hs : '(' ∉ s) : ['('] ∉ ts := by
  intro hin
  have hcount := h.count (· = '(') (by
    intro c hc
    obtain rfl := of_decide_eq_true hc
    exact ⟨rfl, rfl⟩)
  have hnone : s.countP (· = '(') = 0 := by
    rw [List.countP_eq_zero]
    intro c hc heq
    obtain rfl := of_decide_eq_true heq
    exact hs hc
  have hpos : 0 < ts.flatten.countP (· = '(') :=
    List.countP_pos_iff.2 ⟨'(', List.mem_flatten.2 ⟨_, hin, List.mem_singleton.2 rfl⟩, by decide⟩
  omega

/-- The tree that `parse_input` returns for a line of at most 255 characters without parentheses
yields the tokens of the line if and only if these are simple commands with `|`, `;`, `&&` or `||`
between them: no argument is a keyword, each redirection has its file, and no simple command has two
files to read from, two to write to, or `&` twice. -/
theorem parser_keeps_iff (line : List Char) (hline : line.length ≤ 255)
    (hparen : '(' ∉ line ∧ ')' ∉ line) (cmd : Command) (h : parseInput line = .ok cmd) :
    ∃ ts, tokenize line = .ok ts ∧ (Yields cmd ts ↔ Kept ts) := by
  obtain ⟨ts, htokens, hlex, -, -⟩ := tokenize_short hline
  refine ⟨ts, htokens, ?_⟩
  rw [parseInput, htokens] at h
  simp only [bind, Except.bind] at h
  cases hx : parseCommand (ts.length + 1) ts with
  | error e =>
      rw [hx] at h
      cases h
  | ok r =>
      rw [hx] at h
      cases h
      obtain ⟨hpart, hyields⟩ := parseCommand_part (Nat.lt_succ_self _) (hlex.no_paren hparen.1) hx
      exact ⟨fun hall => hpart.2 (Nat.le_of_eq hall.length), hyields⟩

/-- `a&;b`. -/
theorem parser_keeps_background : ∃ cmd, parseInput ['a', '&', ';', 'b'] = .ok cmd ∧
    tokenize ['a', '&', ';', 'b'] = .ok [['a'], ['&'], [';'], ['b']] ∧
    Yields cmd [['a'], ['&'], [';'], ['b']] := by
  refine ⟨_, rfl, rfl, ?_⟩
  obtain ⟨ts, hts, hiff⟩ :=
    parser_keeps_iff ['a', '&', ';', 'b'] (by decide) (by decide) _ rfl
  cases hts
  have hfirst : Single [.arg ['a'], .background] :=
    ⟨by simp [Item.Ok, stopTokens, redirectionTokens], by decide, by decide, by decide⟩
  have hlast : Single [.arg ['b']] :=
    ⟨by simp [Item.Ok, stopTokens, redirectionTokens], by decide, by decide, by decide⟩
  have hop : [';'] ∈ separators := by decide
  exact hiff.2 (.more hfirst hop (.last hlast))

/-- `a if`: the parser ends at the keyword. -/
theorem parser_drops_keyword : ∃ cmd, parseInput ['a', ' ', 'i', 'f'] = .ok cmd ∧
    tokenize ['a', ' ', 'i', 'f'] = .ok [['a'], ['i', 'f']] ∧
    flatten cmd = [['a']] ∧ ¬Yields cmd [['a'], ['i', 'f']] :=
  ⟨_, rfl, rfl, rfl, fun h => absurd h.length (by decide)⟩

end Xv6.User.Bash2

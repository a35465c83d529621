import Xv6.User.BashParser

/-!
# NUL-termination in place

What `nulterminate` of `user/bash.c` does to the line of a command that `parsecmd` accepts.  The
words of the line are apart from each other, so a NUL behind one of them is in none of them.

## Main results

* `nulterminate_sound`: each string of the tree is afterwards the characters of its word, and
  nothing but the places behind the words is written.
-/

namespace Xv6.User.Bash

/-- The word that a token is. -/
def Tok.word? {W : Type} : Tok W → Option W
  | .word w => some w
  | _ => none

/-- The words among the tokens, in order. -/
def wordTokens {W : Type} (ts : List (Tok W)) : List W := ts.filterMap Tok.word?

section Grammar

variable {W : Type}

@[simp] theorem wordTokens_append (ts us : List (Tok W)) :
    wordTokens (ts ++ us) = wordTokens ts ++ wordTokens us := List.filterMap_append

@[simp] theorem wordTokens_cons_word (w : W) (ts : List (Tok W)) :
    wordTokens (.word w :: ts) = w :: wordTokens ts := rfl

@[simp] theorem wordTokens_nil : wordTokens ([] : List (Tok W)) = [] := rfl

theorem wordTokens_cons {t : Tok W} (ht : t.word? = none) (ts : List (Tok W)) :
    wordTokens (t :: ts) = wordTokens ts := List.filterMap_cons_none ht

@[simp] theorem wordTokens_ampersands (n : Nat) :
    wordTokens (List.replicate n (.ampersand : Tok W)) = [] := by
  induction n with
  | zero => rfl
  | succ n ih => rw [List.replicate_succ, wordTokens_cons rfl, ih]

theorem wordTokens_redirTokens (ops : List (RedirOp × W)) :
    wordTokens (redirTokens ops) = ops.map Prod.snd := by
  induction ops with
  | nil => rfl
  | cons o ops ih =>
      have ho : (o.1.tok : Tok W).word? = none := by cases o.1 <;> rfl
      rw [redirTokens, List.flatMap_cons, wordTokens_append, wordTokens_cons ho, List.map_cons,
        ← ih]
      rfl

theorem file_redirsOf (ops : List (RedirOp × W)) :
    (redirsOf ops).map Redir.file = ops.map Prod.snd := by
  rw [redirsOf, List.map_map]
  refine List.map_congr_left fun o _ => ?_
  obtain ⟨op, w⟩ := o
  cases op <;> rfl

/-- The words of `(word redir*)*` are the arguments and the files, each in its order. -/
theorem wordTokens_argTokens (items : List (W × List (RedirOp × W))) :
    (items.map Prod.fst ++ (items.flatMap Prod.snd).map Prod.snd).Perm
      (wordTokens (argTokens items)) := by
  induction items with
  | nil => exact .nil
  | cons i items ih =>
      have htokens : wordTokens (argTokens (i :: items)) =
          i.1 :: (i.2.map Prod.snd ++ wordTokens (argTokens items)) := by
        rw [argTokens, List.flatMap_cons, List.cons_append, wordTokens_cons_word,
          wordTokens_append, wordTokens_redirTokens]
        rfl
      rw [htokens, List.map_cons, List.flatMap_cons, List.map_append, List.cons_append,
        ← List.append_assoc]
      refine .cons _ ((List.Perm.append_right _ List.perm_append_comm).trans ?_)
      rw [List.append_assoc]
      exact ih.append_left _

mutual

/-- The words of a tree are the words of the tokens that derive it. -/
theorem Line.words_perm {ts : List (Tok W)} {t : Tree W} :
    Line ts t → t.words.Perm (wordTokens ts)
  | .last n hp => by
      rw [words_backs, wordTokens_append, wordTokens_ampersands, List.append_nil]
      exact hp.words_perm
  | .seq n hp hl => by
      rw [Tree.words, words_backs, wordTokens_append, wordTokens_append, wordTokens_ampersands,
        wordTokens_cons rfl, List.nil_append]
      exact hp.words_perm.append hl.words_perm

theorem Pipe.words_perm {ts : List (Tok W)} {t : Tree W} :
    Pipe ts t → t.words.Perm (wordTokens ts)
  | .last he => he.words_perm
  | .more he hp => by
      rw [Tree.words, wordTokens_append, wordTokens_cons rfl]
      exact he.words_perm.append hp.words_perm

theorem Exec.words_perm {ts : List (Tok W)} {t : Tree W} :
    Exec ts t → t.words.Perm (wordTokens ts)
  | .block ops hl => by
      rw [words_redircmd, wordTokens_cons rfl, wordTokens_append, wordTokens_cons rfl,
        wordTokens_redirTokens, file_redirsOf]
      exact hl.words_perm.append_right _
  | .simple ops items hlen => by
      rw [words_redircmd, Tree.words, List.map_append, file_redirsOf, file_redirsOf,
        wordTokens_append, wordTokens_redirTokens, ← List.append_assoc]
      refine (List.Perm.append_right _ List.perm_append_comm).trans ?_
      rw [List.append_assoc]
      exact (wordTokens_argTokens items).append_left _

end

end Grammar

/-! ## The characters of a word -/

variable {line : List Char} {w v : Word} {part : List Char}

/-- The characters of a word in its line: those from `q` up to `eq`. -/
def Word.text (line : List Char) (w : Word) : List Char :=
  (line.drop (line.length - w.q)).take (w.q - w.eq)

theorem WordOf.drop (h : WordOf line w part) : line.drop (line.length - w.q) = part := by
  obtain ⟨⟨pre, hpre⟩, hq, -⟩ := h
  have hlen : line.length - w.q = pre.length := by
    rw [hq, ← hpre, List.length_append, Nat.add_sub_cancel]
  rw [hlen, ← hpre, List.drop_left]

theorem WordOf.text_eq (h : WordOf line w part) : w.text line = part.takeWhile wordChar := by
  have hsplit := List.takeWhile_append_dropWhile (p := wordChar) (l := part)
  have hlen := congrArg List.length hsplit
  rw [List.length_append] at hlen
  rw [Word.text, h.drop]
  conv_lhs => rw [← hsplit]
  exact List.take_left' (by rw [h.2.1, h.2.2]; omega)

theorem WordOf.le (h : WordOf line w part) : w.eq ≤ w.q ∧ w.q ≤ line.length := by
  have hpart := h.1.length_le
  have hdrop := (List.dropWhile_suffix (l := part) wordChar).length_le
  rw [h.2.1, h.2.2]
  exact ⟨hdrop, hpart⟩

/-- The place behind a word is in no word. -/
theorem WordOf.apart {part' : List Char} (hw : WordOf line w part) (hv : WordOf line v part') :
    ¬(line.length - v.q ≤ line.length - w.eq ∧ line.length - w.eq < line.length - v.eq) := by
  rintro ⟨hge, hlt⟩
  obtain ⟨hchars, hend, -⟩ := hv.chars
  obtain ⟨j, hj⟩ := Nat.exists_eq_add_of_le hge
  have hjlt : j < (part'.takeWhile wordChar).length := by omega
  have hc := hchars j hjlt
  rw [← hj, List.getElem?_eq_getElem hjlt] at hc
  have hnot := hw.chars.2.2 _ hc
  have hyes : wordChar (part'.takeWhile wordChar)[j] = true :=
    List.all_eq_true.1 List.all_takeWhile _ (List.getElem_mem hjlt)
  rw [hnot] at hyes
  cases hyes

/-! ## `nulterminate` -/

theorem length_nulBehind (n : Nat) (ws : List Word) (buf : List Char) :
    (nulBehind n ws buf).length = buf.length := by
  induction ws generalizing buf with
  | nil => rfl
  | cons w ws ih => exact (ih _).trans List.length_set

/-- The tree and the line that `parsecmd` returns. -/
theorem parsecmd_ok {line : CString} {t : Tree Word} {buf : List Char}
    (h : parsecmd line = .ok (t, buf)) :
    Line (tokens line.1) t ∧ buf = nulterminate line.1.length t (line.1 ++ ['\x00']) := by
  have hfuel : 4 * (tokens line.1).length + 4 ≤ 4 * line.1.length + 4 := by
    have := tokens_length line.1
    omega
  have hsound := (sound (4 * line.1.length + 4)).line line.1 hfuel
  rw [parsecmd] at h
  cases hx : parseline (4 * line.1.length + 4) line.1 with
  | error e =>
      rw [hx] at h
      cases h
  | ok y =>
      obtain ⟨u, r⟩ := y
      rw [hx] at h hsound
      simp only [bind, Except.bind] at h
      split at h
      · rename_i hend
        obtain ⟨ts, hts, hline⟩ := hsound
        cases h
        rw [tokens_eq_nil.2 hend, List.append_nil] at hts
        exact ⟨hts ▸ hline, rfl⟩
      · cases h

/-- Of a line that `parsecmd` accepts, the strings of the tree are the words among its tokens.
After `nulterminate` each of them is, as a C string, the characters of its word, with a NUL behind
it; no NUL is in a word; and a place that is written is one behind a word, in the line or that of
its NUL. -/
theorem nulterminate_sound (line : CString) (t : Tree Word) (buf : List Char)
    (h : parsecmd line = .ok (t, buf)) :
    t.words.Perm (wordTokens (tokens line.1)) ∧
    (∀ w ∈ t.words, w.eq ≤ w.q ∧ w.q ≤ line.1.length ∧
      stringAt buf (line.1.length - w.q) = w.text line.1 ∧
      buf[line.1.length - w.eq]? = some '\x00' ∧
      ∀ v ∈ t.words, ¬(line.1.length - v.q ≤ line.1.length - w.eq ∧
        line.1.length - w.eq < line.1.length - v.eq)) ∧
    buf.length = line.1.length + 1 ∧
    ∀ i < buf.length, buf[i]? = if ∃ w ∈ t.words, line.1.length - w.eq = i then some '\x00'
      else (line.1 ++ ['\x00'])[i]? := by
  obtain ⟨hline, hbuf⟩ := parsecmd_ok h
  have hlength : buf.length = line.1.length + 1 := by
    rw [hbuf, nulterminate_eq, length_nulBehind, List.length_append, List.length_singleton]
  have hget : ∀ i < buf.length, buf[i]? = if ∃ w ∈ t.words, line.1.length - w.eq = i then
      some '\x00' else (line.1 ++ ['\x00'])[i]? := by
    intro i hi
    rw [hbuf, nulterminate_eq, nulBehind_get]
    simpa [hlength] using hi
  have hwords : ∀ w ∈ t.words, ∃ part, WordOf line.1 w part := fun w hw =>
    wordOf_tokens List.suffix_rfl (hline.words w hw)
  refine ⟨hline.words_perm, fun w hw => ?_, hlength, hget⟩
  obtain ⟨part, hpart⟩ := hwords w hw
  have hstring : stringAt buf (line.1.length - w.q) = part.takeWhile wordChar := by
    rw [hbuf]
    exact stringAt_nulterminate hwords hw hpart
  refine ⟨hpart.le.1, hpart.le.2, hstring.trans hpart.text_eq.symm, ?_, fun v hv => ?_⟩
  · rw [hget _ (by omega), if_pos ⟨w, hw, rfl⟩]
  · obtain ⟨vpart, hvpart⟩ := hwords v hv
    exact hpart.apart hvpart

/-- `a>b|c`: the NULs are put where the operators are. -/
theorem nulterminate_sound_operators :
    (Tree.pipe (.redir (.exec [⟨5, 4⟩]) ⟨3, 2⟩ O_WRONLY_CREATE 1) (.exec [⟨1, 0⟩])).words.Perm
      (wordTokens (tokens ['a', '>', 'b', '|', 'c'])) ∧
    stringAt ['a', '\x00', 'b', '\x00', 'c', '\x00'] 2 =
      Word.text ['a', '>', 'b', '|', 'c'] ⟨3, 2⟩ :=
  have h := nulterminate_sound ⟨['a', '>', 'b', '|', 'c'], by decide⟩
    (.pipe (.redir (.exec [⟨5, 4⟩]) ⟨3, 2⟩ O_WRONLY_CREATE 1) (.exec [⟨1, 0⟩]))
    ['a', '\x00', 'b', '\x00', 'c', '\x00'] (by rfl)
  ⟨h.1, (h.2.1 ⟨3, 2⟩ (by decide)).2.2.1⟩

end Xv6.User.Bash

import Mathlib.Logic.Function.Basic
import Xv6.User.Regex

/-!
# `grep`

`grep` and `main` of `user/grep.c`.  What has been read is kept in `buf` without a NUL behind it, so
`strchr` looks for the next newline in what earlier reads, also of earlier files, have left there.
An access outside `buf` stops the model.

* `grep_exact_iff`: the lines written are the right ones and nothing behind what was read has been
  looked at only if there was nothing to read.
* `grep_stale_line`: a line that no file has is written.
-/

namespace Xv6.User.Grep

/-- The byte of `'\n'`. -/
abbrev newline : UInt8 := 10

/-- `sizeof(buf)`. -/
abbrev SIZE : Nat := 1024

/-- The buffer and what has been written to file 1.  `beyond` is whether `strchr` has looked at a
byte behind those that were read. -/
structure State where
  buf : Nat → UInt8
  out : List UInt8
  beyond : Bool

/-- Before `main`. -/
def start : State where
  buf _ := 0
  out := []
  beyond := false

/-- What `strchr` comes to, from the last byte that it looks at. -/
inductive Search where
  | found (q : Nat)
  | ended (q : Nat)
  | outside
  deriving DecidableEq

/-- `strchr(buf + p, c)`, with `n` bytes from there to the end of the buffer. -/
def strchr (buf : Nat → UInt8) (c : UInt8) : Nat → Nat → Search
  | 0, _ => .outside
  | n + 1, p =>
      if buf p = 0 then .ended p
      else if buf p = c then .found p
      else strchr buf c n (p + 1)

/-- The string from `p` up to the NUL at `q`. -/
def text (buf : Nat → UInt8) (p q : Nat) : List UInt8 := (List.range' p (q - p)).map buf

/-- Byte `q` has been looked at, when there are `m`. -/
def State.look (s : State) (m q : Nat) : State := { s with beyond := s.beyond || decide (m ≤ q) }

/-- The line from `p` to the newline at `q`; `found` is `match` with the pattern. -/
def State.line (s : State) (found : List UInt8 → Bool) (p q : Nat) : State :=
  if found (text s.buf p q) then
    { s with
      buf := Function.update s.buf q newline
      out := s.out ++ (text s.buf p q ++ [newline]) }
  else { s with buf := Function.update s.buf q 0 }

/-- The loop of `grep` over the lines of the buffer, with `m` bytes in it, and where it ends; every
round moves `p` on. -/
def lineLoop (found : List UInt8 → Bool) (m : Nat) : Nat → Nat → State → Option (Nat × State)
  | 0, _, _ => none
  | fuel + 1, p, s =>
      match strchr s.buf newline (SIZE - p) p with
      | .outside => none
      | .ended q => some (p, s.look m q)
      | .found q => lineLoop found m fuel (q + 1) ((s.look m q).line found p q)

/-- `read`: the bytes are put at `m`. -/
def State.fill (s : State) (m : Nat) (bytes : List UInt8) : State :=
  { s with buf := fun i => if m ≤ i then bytes.getD (i - m) (s.buf i) else s.buf i }

/-- `memmove(buf, buf + p, n)`. -/
def State.shift (s : State) (p n : Nat) : State :=
  { s with buf := fun i => if i < n then s.buf (p + i) else s.buf i }

/-- How many of the bytes that are left `read` gives, when it is asked for `room` and `wanted` is
what the kernel has at hand. -/
def readCount (wanted room left : Nat) : Nat := min (max 1 wanted) (min room left)

/-- The loop of `grep` over the reads; every round reads at least one byte.  `m` can be negative,
since a newline may be found behind the bytes that were read. -/
def readLoop (found : List UInt8 → Bool) : Nat → Int → List UInt8 → List Nat → State → Option State
  | 0, _, _, _, s => some s
  | fuel + 1, m, input, sizes, s =>
      let n := readCount (sizes.headD 0) (SIZE - m).toNat input.length
      if n = 0 then some s
      else if m < 0 then none
      else
        let m := m.toNat + n
        match lineLoop found m (SIZE + 1) 0 (s.fill (m - n) (input.take n)) with
        | none => none
        | some (p, s) =>
            let m := if p = 0 then 0 else m
            if 0 < m then
              readLoop found fuel (m - p) (input.drop n) sizes.tail (s.shift p (m - p))
            else readLoop found fuel m (input.drop n) sizes.tail s

/-- `grep`, for a file with the given bytes. -/
def grep (found : List UInt8 → Bool) (sizes : List Nat) (s : State) (file : List UInt8) :
    Option State :=
  readLoop found (file.length + 1) 0 file sizes s

/-- `main`, for the bytes of the files that are named, each with the sizes of its reads. -/
def main (re : List UInt8) (files : List (List UInt8 × List Nat)) : Option State :=
  files.foldlM (fun s file => grep (matchRe re) file.2 s file.1) start

/-! ## The lines that are wanted -/

/-- The lines of a file that end in a newline. -/
def lines (file : List UInt8) : List (List UInt8) := (file.splitOn newline).dropLast

/-- The lines that match, each with its newline. -/
def wanted (re : List UInt8) (files : List (List UInt8 × List Nat)) : List UInt8 :=
  files.flatMap fun file => ((lines file.1).filter (matchRe re)).flatMap (· ++ [newline])

/-- Exactly the wanted lines are written, and nothing is looked at that was not read. -/
def Exact (re : List UInt8) (files : List (List UInt8 × List Nat)) : Prop :=
  ∃ s, main re files = some s ∧ s.out = wanted re files ∧ s.beyond = false

section Beyond

variable {found : List UInt8 → Bool} {re : List UInt8} {s s' : State} {buf : Nat → UInt8}
  {c : UInt8} {m n p q : Nat}

theorem strchr_found (h : strchr buf c n p = .found q) :
    p ≤ q ∧ q < p + n ∧ buf q = c ∧ ∀ i, p ≤ i → i ≤ q → buf i ≠ 0 := by
  induction n generalizing p with
  | zero => cases h
  | succ n ih =>
      rw [strchr] at h
      split at h
      · cases h
      · rename_i hp
        split at h
        · rename_i hc
          cases h
          exact ⟨le_rfl, by omega, hc, fun i hle hge => le_antisymm hle hge ▸ hp⟩
        · obtain ⟨hle, hlt, hq, hne⟩ := ih h
          refine ⟨by omega, by omega, hq, fun i hi hiq => ?_⟩
          by_cases hip : i = p
          · exact hip ▸ hp
          · exact hne i (by omega) hiq

theorem strchr_ended (h : strchr buf c n p = .ended q) : p ≤ q ∧ buf q = 0 := by
  induction n generalizing p with
  | zero => cases h
  | succ n ih =>
      rw [strchr] at h
      split at h
      · rename_i hp
        cases h
        exact ⟨le_rfl, hp⟩
      · split at h
        · cases h
        · obtain ⟨hle, hq⟩ := ih h
          exact ⟨by omega, hq⟩

theorem State.line_buf (i : Nat) (hi : i ≠ q) : (s.line found p q).buf i = s.buf i := by
  unfold State.line
  split <;> exact Function.update_of_ne hi _ _

theorem State.line_beyond : (s.line found p q).beyond = s.beyond := by
  unfold State.line
  split <;> rfl

theorem State.look_beyond (h : m ≤ q) : (s.look m q).beyond = true := by
  rw [State.look, decide_eq_true h, Bool.or_true]

theorem State.look_mono (h : s.beyond = true) : (s.look m q).beyond = true := by
  rw [State.look, h, Bool.true_or]

/-- What was looked at stays looked at. -/
theorem lineLoop_mono {fuel : Nat} {r : Nat × State} (h : lineLoop found m fuel p s = some r)
    (hs : s.beyond = true) : r.2.beyond = true := by
  induction fuel generalizing p s with
  | zero => cases h
  | succ fuel ih =>
      rw [lineLoop] at h
      split at h
      · cases h
      · cases h
        exact State.look_mono hs
      · exact ih h (by rw [State.line_beyond, State.look_mono hs])

/-- The search for the last newline passes the end of what was read: there is no NUL before. -/
theorem lineLoop_beyond {fuel : Nat} {r : Nat × State} (h : lineLoop found m fuel p s = some r)
    (hp : p ≤ m) (hne : ∀ i, p ≤ i → i < m → s.buf i ≠ 0) : r.2.beyond = true := by
  induction fuel generalizing p s with
  | zero => cases h
  | succ fuel ih =>
      rw [lineLoop] at h
      split at h
      · cases h
      · rename_i q hend
        cases h
        obtain ⟨hle, hzero⟩ := strchr_ended hend
        refine State.look_beyond (Nat.le_of_not_lt fun hlt => hne q hle hlt hzero)
      · rename_i q hfound
        obtain ⟨hle, -, -, -⟩ := strchr_found hfound
        by_cases hq : q < m
        · refine ih h (by omega) fun i hi him => ?_
          rw [State.line_buf i (by omega)]
          exact hne i (by omega) him
        · exact lineLoop_mono h (by rw [State.line_beyond, State.look_beyond (by omega)])

theorem readLoop_mono {fuel : Nat} {m : Int} {input : List UInt8} {sizes : List Nat}
    (h : readLoop found fuel m input sizes s = some s') (hs : s.beyond = true) :
    s'.beyond = true := by
  induction fuel generalizing m input sizes s with
  | zero =>
      cases h
      exact hs
  | succ fuel ih =>
      simp only [readLoop] at h
      split at h
      · cases h
        exact hs
      · split at h
        · cases h
        · split at h
          · cases h
          · rename_i p s₁ hloop
            have hs₁ : s₁.beyond = true := lineLoop_mono hloop hs
            split at h <;> split at h <;> exact ih h hs₁

/-- The first read of a file. -/
theorem grep_beyond {file : List UInt8} {sizes : List Nat} (hfile : file ≠ []) (hnul : 0 ∉ file)
    (h : grep found sizes s file = some s') : s'.beyond = true := by
  simp only [grep, readLoop] at h
  have hpos : 0 < file.length := List.length_pos_of_ne_nil hfile
  have hroom : (SIZE - (0 : Int)).toNat = SIZE := rfl
  have hn : readCount (sizes.headD 0) SIZE file.length ≠ 0 := by
    have hsize : 0 < SIZE := by decide
    simp only [readCount]
    omega
  have hle : readCount (sizes.headD 0) SIZE file.length ≤ file.length := by
    simp only [readCount]
    omega
  rw [hroom, if_neg hn, if_neg (by omega)] at h
  generalize readCount (sizes.headD 0) SIZE file.length = n at h hle
  split at h
  · cases h
  · rename_i p s₁ hloop
    have hs₁ : s₁.beyond = true := by
      refine lineLoop_beyond hloop (Nat.zero_le _) fun i _ hi => ?_
      -- What was just read are bytes of the file.
      have hlt : i < (file.take n).length := by
        rw [List.length_take]
        omega
      have hbyte : (s.fill (Int.toNat 0 + n - n) (file.take n)).buf i = (file.take n)[i] := by
        simp only [State.fill, Int.toNat_zero, Nat.zero_add, Nat.sub_self, Nat.zero_le, if_true,
          Nat.sub_zero]
        rw [List.getD_eq_getElem?_getD, List.getElem?_eq_getElem hlt, Option.getD_some]
      rw [hbyte]
      exact fun hzero => hnul (hzero ▸ List.mem_of_mem_take (List.getElem_mem hlt))
    split at h <;> split at h <;> exact readLoop_mono h hs₁

theorem grep_empty {sizes : List Nat} : grep found sizes s [] = some s := by
  rw [grep, List.length_nil, readLoop, if_pos]
  simp [readCount]

/-- The files after an access behind what was read change nothing about it. -/
theorem files_mono {files : List (List UInt8 × List Nat)}
    (h : files.foldlM (fun s file => grep found file.2 s file.1) s = some s')
    (hs : s.beyond = true) : s'.beyond = true := by
  induction files generalizing s with
  | nil =>
      cases h
      exact hs
  | cons file files ih =>
      rw [List.foldlM_cons] at h
      obtain ⟨s₁, hgrep, hrest⟩ := Option.bind_eq_some_iff.1 h
      exact ih hrest (readLoop_mono hgrep hs)

theorem files_beyond {files : List (List UInt8 × List Nat)} (hnul : ∀ file ∈ files, 0 ∉ file.1)
    (h : files.foldlM (fun s file => grep found file.2 s file.1) s = some s')
    (hs : s'.beyond = false) : ∀ file ∈ files, file.1 = [] := by
  induction files generalizing s with
  | nil => simp
  | cons file files ih =>
      rw [List.foldlM_cons] at h
      obtain ⟨s₁, hgrep, hrest⟩ := Option.bind_eq_some_iff.1 h
      have hfile : file.1 = [] := by
        by_contra hne
        have := files_mono hrest (grep_beyond hne (hnul file (.head _)) hgrep)
        simp [this] at hs
      intro f hf
      rcases List.mem_cons.1 hf with rfl | hf
      · exact hfile
      · exact ih (fun g hg => hnul g (.tail _ hg)) hrest f hf

theorem main_empty {files : List (List UInt8 × List Nat)} (h : ∀ file ∈ files, file.1 = []) :
    files.foldlM (fun s file => grep found file.2 s file.1) s = some s := by
  induction files generalizing s with
  | nil => rfl
  | cons file files ih =>
      rw [List.foldlM_cons, h file (.head _), grep_empty]
      exact ih fun g hg => h g (.tail _ hg)

theorem wanted_empty {files : List (List UInt8 × List Nat)} (h : ∀ file ∈ files, file.1 = []) :
    wanted re files = [] := by
  rw [wanted, List.flatMap_eq_nil_iff]
  intro file hfile
  rw [h file hfile]
  rfl

/-- The lines written are the right ones, and nothing but what was read is looked at, only if the
files are empty. -/
theorem grep_exact_iff (re : List UInt8) (files : List (List UInt8 × List Nat))
    (hnul : ∀ file ∈ files, 0 ∉ file.1) : Exact re files ↔ ∀ file ∈ files, file.1 = [] := by
  constructor
  · rintro ⟨s, hmain, -, hbeyond⟩
    exact files_beyond hnul hmain hbeyond
  · intro h
    exact ⟨start, main_empty h, (wanted_empty h).symm, rfl⟩

/-- Two empty files, and a file with a line. -/
theorem grep_exact_empty : Exact [97] [([], []), ([], [3])] ∧ ¬Exact [97] [([97, 10], [2])] :=
  ⟨(grep_exact_iff [97] [([], []), ([], [3])] (by simp)).2 (by simp),
    mt (grep_exact_iff [97] [([97, 10], [2])] (by simp)).1 (by simp)⟩

theorem matchRe_letter : matchRe [121] = fun text => text.contains 121 := by
  funext text
  change matchLoop [121] text = _
  induction text with
  | nil => simp [matchLoop, matchhere, dollar]
  | cons t text ih =>
      rw [matchLoop, ih, List.contains_cons]
      by_cases ht : (121 : UInt8) = t
      · subst ht
        simp [matchhere, dot, dollar]
      · simp [matchhere, ht, dot, dollar]

/-- A file with the lines `x`, `yy` and the beginning `zw` of a third, of which the first read gives
all but the `w`: the buffer then has `zw` in front of the line `yy`, which is written again. -/
theorem grep_stale_line :
    (main [121] [([120, 10, 121, 121, 10, 122, 119], [6, 1])]).map (·.out) =
      some [121, 121, 10, 122, 119, 121, 121, 10] ∧
      ¬Exact [121] [([120, 10, 121, 121, 10, 122, 119], [6, 1])] := by
  have hout : (main [121] [([120, 10, 121, 121, 10, 122, 119], [6, 1])]).map (·.out) =
      some [121, 121, 10, 122, 119, 121, 121, 10] := by
    rw [main, matchRe_letter]
    decide +kernel
  have hwanted : wanted [121] [([120, 10, 121, 121, 10, 122, 119], [6, 1])] = [121, 121, 10] := by
    rw [wanted, matchRe_letter]
    decide +kernel
  refine ⟨hout, ?_⟩
  rintro ⟨s, hmain, hs, -⟩
  rw [hmain, Option.map_some, hs, hwanted] at hout
  exact absurd hout (by decide)

end Beyond

end Xv6.User.Grep

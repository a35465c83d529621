import Xv6.Verified.Memory
import Mathlib.Tactic.Ring

/-!
# Reading a bitmap

`readBitmapFile` and `read24BitmapFile` of `ulib/bitmap.c`, for a file that can be opened.  The
result and the padding buffer are memories of bytes; `read` stops at the end of the file.  A file
has at most `MAXFILE * BSIZE` bytes, so no product of an image's sizes overflows
(`Image.products_small`).

## Main results

* `readers_decode_iff`: neither function writes outside its result or its padding buffer, and when
  what they store is the image of the file.
-/

namespace Xv6.Ulib.Bitmap

open Xv6.Verified

/-! ## The functions -/

/-- `RGB`, in the order of its fields. -/
structure RGB where
  B : UInt8
  G : UInt8
  R : UInt8
  deriving DecidableEq

/-- `RGBA`, in the order of its fields. -/
structure RGBA where
  A : UInt8
  B : UInt8
  G : UInt8
  R : UInt8
  deriving DecidableEq

/-- The fields of the headers that are used. -/
structure Header where
  biWidth : Int
  biHeight : Int
  biBitCount : Nat
  deriving DecidableEq

/-- The sizes of the two headers, which are packed. -/
abbrev headerSize : Nat := 14 + 40

/-- `readBitmapHeader`. -/
def readBitmapHeader (file : List UInt8) : Header where
  biWidth := Int.bmod (load (file.getD · 0) 18 4) (2 ^ 32)
  biHeight := Int.bmod (load (file.getD · 0) 22 4) (2 ^ 32)
  biBitCount := load (file.getD · 0) 28 2

/-- A function at work: how far the file was read, its result and `tmpBytes`. -/
structure Reader where
  pos : Nat
  result : Nat → UInt8
  tmpBytes : Nat → UInt8

/-- A memory behind `read` of `n` bytes to `p`. -/
def put (file : List UInt8) (pos : Nat) (m : Nat → UInt8) (p n : Nat) : Nat → UInt8 :=
  fun b => if p ≤ b ∧ b < p + n then (file[pos + (b - p)]?).getD (m b) else m b

/-- The offset behind `read` of `n` bytes. -/
def advance (file : List UInt8) (pos n : Nat) : Nat := pos + min n (file.length - pos)

/-- `read(bmpFile, buf + p, n)`. -/
def readResult (file : List UInt8) (p n : Nat) (s : Reader) : Reader :=
  { s with pos := advance file s.pos n, result := put file s.pos s.result p n }

/-- `read(bmpFile, tmpBytes, n)`. -/
def readTmp (file : List UInt8) (n : Nat) (s : Reader) : Reader :=
  { s with pos := advance file s.pos n, tmpBytes := put file s.pos s.tmpBytes 0 n }

/-- `for (i = 0; i < n; i++)`. -/
def loop (n : Nat) (f : Nat → Reader → Reader) (s : Reader) : Reader :=
  (List.range n).foldl (fun s i => f i s) s

/-- The padding of a row. -/
def skipPadding (file : List UInt8) (rowBytes : Nat) (s : Reader) : Reader :=
  if rowBytes % 4 > 0 then readTmp file (4 - rowBytes % 4) s else s

/-- `readBitmapFile`, with what was in the result and in `tmpBytes`. -/
def readBitmapFile (file : List UInt8) (result tmpBytes : Nat → UInt8) : Reader :=
  let header := readBitmapHeader file
  let column := header.biWidth.toNat
  let row := header.biHeight.toNat
  let bits := header.biBitCount
  let rowBytes := column * bits / 8
  loop row (fun i s => skipPadding file rowBytes
      (if bits = 32 then readResult file (i * rowBytes) rowBytes s
      else loop column (fun j s =>
        let s := readResult file (i * column * 4 + j * 4) 3 s
        { s with result := Function.update s.result (i * column * 4 + j * 4 + 3) 255 }) s))
    ⟨advance file 0 headerSize, result, tmpBytes⟩

/-- `read24BitmapFile`. -/
def read24BitmapFile (file : List UInt8) (result tmpBytes : Nat → UInt8) : Reader :=
  let header := readBitmapHeader file
  let column := header.biWidth.toNat
  let row := header.biHeight.toNat
  let bits := header.biBitCount
  let rowBytes := column * 3
  loop row (fun i s => skipPadding file rowBytes
      (if bits = 24 then readResult file (i * rowBytes) rowBytes s
      else loop column (fun j s =>
        readTmp file 1 (readResult file (i * column * 3 + j * 3) 3 s)) s))
    ⟨advance file 0 headerSize, result, tmpBytes⟩

/-- The pixel `n` of a result. -/
def rgbAt (m : Nat → UInt8) (n : Nat) : RGB := ⟨m (n * 3), m (n * 3 + 1), m (n * 3 + 2)⟩

@[inherit_doc rgbAt]
def rgbaAt (m : Nat → UInt8) (n : Nat) : RGBA :=
  ⟨m (n * 4), m (n * 4 + 1), m (n * 4 + 2), m (n * 4 + 3)⟩

/-! ## Images -/

/-- `MAXFILE * BSIZE`, the bytes that a file can have. -/
abbrev maxFileSize : Nat := 268 * 1024

/-- An uncompressed image in a file, with its pixels behind the headers. -/
structure Image where
  file : List UInt8
  width : Nat
  height : Nat
  bits : Nat
  header : readBitmapHeader file = ⟨width, height, bits⟩
  depth : bits = 24 ∨ bits = 32
  body : file.length = headerSize + height * ((width * (bits / 8) + 3) / 4 * 4)
  small : file.length ≤ maxFileSize

namespace Image

/-- The bytes of a pixel. -/
def pixelBytes (img : Image) : Nat := img.bits / 8

/-- The bytes of a row, with its padding. -/
def stride (img : Image) : Nat := (img.width * img.pixelBytes + 3) / 4 * 4

/-- Byte `k` of the pixel in row `i` and column `j`: B, G, R and A. -/
def byte (img : Image) (i j k : Nat) : UInt8 :=
  img.file.getD (headerSize + i * img.stride + j * img.pixelBytes + k) 0

/-- The result of `read24BitmapFile` is the image. -/
def Decoded24 (img : Image) (m : Nat → UInt8) : Prop :=
  ∀ i < img.height, ∀ j < img.width,
    rgbAt m (i * img.width + j) = ⟨img.byte i j 0, img.byte i j 1, img.byte i j 2⟩

/-- The result of `readBitmapFile` is the image. -/
def Decoded (img : Image) (m : Nat → UInt8) : Prop :=
  ∀ i < img.height, ∀ j < img.width,
    (rgbaAt m (i * img.width + j)).B = img.byte i j 0 ∧
    (rgbaAt m (i * img.width + j)).G = img.byte i j 1 ∧
    (rgbaAt m (i * img.width + j)).R = img.byte i j 2 ∧
    (img.bits = 24 → (rgbaAt m (i * img.width + j)).A = 255)

/-- The products of the readers are ints, whenever a row is read. -/
theorem products_small (img : Image) (h : 0 < img.height) :
    img.width * img.bits < 2 ^ 31 ∧ img.height * img.width * 4 < 2 ^ 31 := by
  have hbody := img.body
  have hsmall := img.small
  simp only [headerSize, maxFileSize] at hbody hsmall
  obtain ⟨stride, hstride⟩ : ∃ n, n = (img.width * (img.bits / 8) + 3) / 4 * 4 := ⟨_, rfl⟩
  rw [← hstride] at hbody
  have hrow : img.width * 3 ≤ stride := by
    rcases img.depth with hbits | hbits
    all_goals
      rw [hbits] at hstride
      omega
  have hall : img.height * (img.width * 3) ≤ img.height * stride := Nat.mul_le_mul_left _ hrow
  have hone : img.width ≤ img.height * img.width := Nat.le_mul_of_pos_left _ h
  rw [← Nat.mul_assoc] at hall
  constructor
  · rcases img.depth with hbits | hbits
    all_goals
      rw [hbits]
      omega
  · omega

end Image

/-! ## Loops -/

variable {file : List UInt8} {s : Reader} {f : Nat → Reader → Reader} {n p q w c u : Nat}

/-- What each step preserves holds behind the loop. -/
theorem loop_induct (P : Nat → Reader → Prop) (h0 : P 0 s)
    (hstep : ∀ i < n, ∀ s, P i s → P (i + 1) (f i s)) : P n (loop n f s) := by
  induction n with
  | zero => exact h0
  | succ n ih =>
      rw [loop, List.range_succ, List.foldl_append]
      exact hstep n (Nat.lt_succ_self n) _ (ih fun i hi => hstep i (Nat.lt_succ_of_lt hi))

/-- The offset that is reached when `p` is asked for. -/
def reached (file : List UInt8) (p : Nat) : Nat := min p file.length

theorem advance_reached (file : List UInt8) (p n : Nat) :
    advance file (reached file p) n = reached file (p + n) := by
  rw [advance, reached, reached]
  omega

theorem getElem?_reached (p k : Nat) : file[reached file p + k]? = file[p + k]? := by
  rw [reached]
  by_cases h : p ≤ file.length
  · rw [Nat.min_eq_left h]
  · rw [List.getElem?_eq_none (by omega), List.getElem?_eq_none (by omega)]

theorem put_inside {m : Nat → UInt8} {pos k : Nat} (hk : k < n) :
    put file pos m p n (p + k) = (file[pos + k]?).getD (m (p + k)) := by
  rw [put.eq_def, if_pos (by omega), Nat.add_sub_cancel_left]

theorem put_outside {m : Nat → UInt8} {pos b : Nat} (hb : b < p ∨ p + n ≤ b) :
    put file pos m p n b = m b := by
  rw [put.eq_def, if_neg (by omega)]

/-- The first `n` pixels, of `u` bytes, have the bytes `V`; other bytes are as before. -/
def Filled (old : Nat → UInt8) (u : Nat) (V : Nat → Nat → UInt8) (n : Nat) (m : Nat → UInt8) :
    Prop :=
  (∀ i < n, ∀ k < u, m (i * u + k) = V i k) ∧ ∀ b, n * u ≤ b → m b = old b

theorem Filled.congr {old m m' : Nat → UInt8} {V : Nat → Nat → UInt8} (h : Filled old u V n m)
    (w : Nat) (hin : ∀ i < w, ∀ k < u, m' ((n + i) * u + k) = V (n + i) k)
    (hout : ∀ b, b < n * u ∨ (n + w) * u ≤ b → m' b = m b) : Filled old u V (n + w) m' := by
  constructor
  · intro i hi k hk
    by_cases hlt : i < n
    · have hpos : i * u + k < n * u := by
        have := Nat.mul_le_mul_right u (Nat.succ_le_of_lt hlt)
        rw [Nat.succ_mul] at this
        omega
      rw [hout _ (.inl hpos), h.1 i hlt k hk]
    · obtain ⟨d, rfl⟩ := Nat.exists_eq_add_of_le (Nat.le_of_not_lt hlt)
      exact hin d (by omega) k hk
  · intro b hb
    have hle := Nat.mul_le_mul_right u (Nat.le_add_right n w)
    rw [hout b (.inr hb), h.2 b (by omega)]

/-- The byte that `read` puts in place of byte `k` of pixel `n`, when row `i` begins at `i * S` and
a pixel has `c` bytes in the file. -/
def readByte (file : List UInt8) (old : Nat → UInt8) (S c u w n k : Nat) : UInt8 :=
  (file[headerSize + n / w * S + n % w * c + k]?).getD (old (n * u + k))

/-- Row `i`, column `j`. -/
theorem readByte_at (old : Nat → UInt8) (S c u : Nat) {i j : Nat} (hj : j < w) (k : Nat) :
    readByte file old S c u w (i * w + j) k =
      (file[headerSize + i * S + j * c + k]?).getD (old ((i * w + j) * u + k)) := by
  have hw : 0 < w := Nat.zero_lt_of_lt hj
  have hdiv : (i * w + j) / w = i := by
    rw [Nat.mul_comm, Nat.mul_add_div hw, Nat.div_eq_of_lt hj, Nat.add_zero]
  have hmod : (i * w + j) % w = j := by
    rw [Nat.mul_comm, Nat.mul_add_mod, Nat.mod_eq_of_lt hj]
  rw [readByte, hdiv, hmod]

/-- How many bytes `skipPadding` reads. -/
def padding (rowBytes : Nat) : Nat := if rowBytes % 4 > 0 then 4 - rowBytes % 4 else 0

theorem skipPadding_spec {tmp : Nat → UInt8} (rowBytes : Nat)
    (hpos : s.pos = reached file p) (htmp : ∀ b, 3 ≤ b → s.tmpBytes b = tmp b) :
    (skipPadding file rowBytes s).pos = reached file (p + padding rowBytes) ∧
      (skipPadding file rowBytes s).result = s.result ∧
      ∀ b, 3 ≤ b → (skipPadding file rowBytes s).tmpBytes b = tmp b := by
  rw [skipPadding, padding]
  split
  · refine ⟨by rw [readTmp, hpos, advance_reached], rfl, fun b hb => ?_⟩
    exact (put_outside (by omega)).trans (htmp b hb)
  · exact ⟨hpos, rfl, htmp⟩

variable {old tmp : Nat → UInt8} {V : Nat → Nat → UInt8} {i j S : Nat}

/-- The state in front of a row: the file was read up to `p`, and the pixels above the row are in
the result. -/
structure AtRow (file : List UInt8) (old tmp : Nat → UInt8) (p u n : Nat) (V : Nat → Nat → UInt8)
    (s : Reader) : Prop where
  pos : s.pos = reached file p
  filled : Filled old u V n s.result
  tmp : ∀ b, 3 ≤ b → s.tmpBytes b = tmp b

theorem AtRow.padding (h : AtRow file old tmp p u n V s) (rowBytes : Nat) :
    AtRow file old tmp (p + padding rowBytes) u n V (skipPadding file rowBytes s) := by
  obtain ⟨hpos, hresult, htmp⟩ := skipPadding_spec rowBytes h.pos h.tmp
  exact ⟨hpos, hresult ▸ h.filled, htmp⟩

/-- A row of `w` pixels is read at once. -/
theorem AtRow.row (h : AtRow file old tmp p u n V s)
    (hV : ∀ j < w, ∀ k < u,
      V (n + j) k = (file[p + j * u + k]?).getD (old ((n + j) * u + k))) :
    AtRow file old tmp (p + w * u) u (n + w) V (readResult file (n * u) (w * u) s) := by
  refine ⟨?_, h.filled.congr w (fun j hj k hk => ?_) fun b hb => ?_, h.tmp⟩
  · rw [readResult, h.pos, advance_reached]
  · have hlt : j * u + k < w * u := by
      have := Nat.mul_le_mul_right u (Nat.succ_le_of_lt hj)
      rw [Nat.succ_mul] at this
      omega
    have hplace : (n + j) * u + k = n * u + (j * u + k) := by ring
    rw [hV j hj k hk, hplace]
    refine (put_inside hlt).trans ?_
    rw [h.pos, getElem?_reached, h.filled.2 _ (Nat.le_add_right _ _), Nat.add_assoc]
  · rw [Nat.add_mul] at hb
    exact put_outside hb

/-- The three bytes of a pixel are read. -/
theorem AtRow.pixel (h : AtRow file old tmp p u n V s) :
    (readResult file (n * u) 3 s).pos = reached file (p + 3) ∧
    (∀ k < 3, (readResult file (n * u) 3 s).result (n * u + k) =
      (file[p + k]?).getD (old (n * u + k))) ∧
    ∀ b, b < n * u ∨ n * u + 3 ≤ b → (readResult file (n * u) 3 s).result b = s.result b := by
  refine ⟨by rw [readResult, h.pos, advance_reached], fun k hk => ?_, fun b hb => put_outside hb⟩
  refine (put_inside hk).trans ?_
  rw [h.pos, getElem?_reached, h.filled.2 _ (Nat.le_add_right _ _)]

theorem atRow_start (old tmp : Nat → UInt8) (u : Nat) (V : Nat → Nat → UInt8) :
    AtRow file old tmp headerSize u 0 V ⟨advance file 0 headerSize, old, tmp⟩ := by
  refine ⟨?_, ⟨nofun, fun _ _ => rfl⟩, fun _ _ => rfl⟩
  have hpos := advance_reached file 0 headerSize
  rwa [reached, Nat.zero_min, Nat.zero_add] at hpos

/-! ## `read24BitmapFile` -/

/-- How far `read24BitmapFile` goes in the file with a row. -/
def rowStep24 (img : Image) : Nat := img.width * img.pixelBytes + padding (img.width * 3)

theorem read24BitmapFile_spec (img : Image) (old tmp : Nat → UInt8) :
    AtRow img.file old tmp (headerSize + img.height * rowStep24 img) 3 (img.height * img.width)
      (readByte img.file old (rowStep24 img) img.pixelBytes 3 img.width)
      (read24BitmapFile img.file old tmp) := by
  rw [read24BitmapFile, img.header]
  simp only [Int.toNat_natCast]
  refine loop_induct (fun i => AtRow img.file old tmp (headerSize + i * rowStep24 img) 3
    (i * img.width) (readByte img.file old (rowStep24 img) img.pixelBytes 3 img.width)) ?_
    fun i _ s hs => ?_
  · rw [Nat.zero_mul, Nat.zero_mul, Nat.add_zero]
    exact atRow_start old tmp 3 _
  · have hV : ∀ j < img.width, ∀ k,
        readByte img.file old (rowStep24 img) img.pixelBytes 3 img.width (i * img.width + j) k =
          (img.file[headerSize + i * rowStep24 img + j * img.pixelBytes + k]?).getD
            (old ((i * img.width + j) * 3 + k)) := fun j hj k => readByte_at _ _ _ _ hj k
    -- the row, without its padding
    suffices hrow : AtRow img.file old tmp
        (headerSize + i * rowStep24 img + img.width * img.pixelBytes) 3
        (i * img.width + img.width)
        (readByte img.file old (rowStep24 img) img.pixelBytes 3 img.width)
        (if img.bits = 24 then readResult img.file (i * (img.width * 3)) (img.width * 3) s
        else loop img.width (fun j s => readTmp img.file 1
          (readResult img.file (i * img.width * 3 + j * 3) 3 s)) s) by
      have hpadded := hrow.padding (img.width * 3)
      rwa [Nat.add_assoc, ← rowStep24, Nat.add_assoc, ← Nat.succ_mul, ← Nat.succ_mul] at hpadded
    rcases img.depth with hbits | hbits
    · have hbytes : img.pixelBytes = 3 := by rw [Image.pixelBytes, hbits]
      rw [hbytes] at hV hs ⊢
      rw [if_pos hbits, ← Nat.mul_assoc]
      exact hs.row fun j hj k _ => hV j hj k
    · have hbytes : img.pixelBytes = 4 := by rw [Image.pixelBytes, hbits]
      rw [hbytes] at hV hs ⊢
      rw [if_neg (by rw [hbits]; decide)]
      refine loop_induct (fun j => AtRow img.file old tmp (headerSize + i * rowStep24 img + j * 4) 3
        (i * img.width + j) (readByte img.file old (rowStep24 img) 4 3 img.width)) ?_
        fun j hj s hs => ?_
      · rw [Nat.zero_mul]
        exact hs
      · obtain ⟨hpos, hin, hout⟩ := hs.pixel
        rw [Nat.add_mul] at hpos hin hout
        refine ⟨?_, hs.filled.congr 1 (fun d hd k hk => ?_) fun b hb => hout b ?_, fun b hb => ?_⟩
        · rw [readTmp, hpos, advance_reached, Nat.succ_mul]
          rfl
        · obtain rfl : d = 0 := by omega
          rw [Nat.add_zero, hV j hj k, Nat.add_mul]
          exact hin k hk
        · rw [Nat.add_mul (_ + j), Nat.add_mul] at hb
          exact hb
        · exact (put_outside (by omega)).trans (hs.tmp b hb)

/-! ## `readBitmapFile` -/

/-- How far `readBitmapFile` goes in the file with a row. -/
def rowStep (img : Image) : Nat :=
  img.width * img.pixelBytes + padding (img.width * img.bits / 8)

/-- The bytes that it stores: with 24 bits the last of a pixel is 255. -/
def storedByte (img : Image) (old : Nat → UInt8) (n k : Nat) : UInt8 :=
  if img.bits = 24 ∧ k = 3 then 255
  else readByte img.file old (rowStep img) img.pixelBytes 4 img.width n k

theorem readBitmapFile_spec (img : Image) (old tmp : Nat → UInt8) :
    AtRow img.file old tmp (headerSize + img.height * rowStep img) 4 (img.height * img.width)
      (storedByte img old) (readBitmapFile img.file old tmp) := by
  rw [readBitmapFile, img.header]
  simp only [Int.toNat_natCast]
  refine loop_induct (fun i => AtRow img.file old tmp (headerSize + i * rowStep img) 4
    (i * img.width) (storedByte img old)) ?_ fun i _ s hs => ?_
  · rw [Nat.zero_mul, Nat.zero_mul, Nat.add_zero]
    exact atRow_start old tmp 4 _
  · have hV : ∀ j < img.width, ∀ k,
        readByte img.file old (rowStep img) img.pixelBytes 4 img.width (i * img.width + j) k =
          (img.file[headerSize + i * rowStep img + j * img.pixelBytes + k]?).getD
            (old ((i * img.width + j) * 4 + k)) := fun j hj k => readByte_at _ _ _ _ hj k
    -- the row, without its padding
    suffices hrow : AtRow img.file old tmp
        (headerSize + i * rowStep img + img.width * img.pixelBytes) 4 (i * img.width + img.width)
        (storedByte img old)
        (if img.bits = 32 then
          readResult img.file (i * (img.width * img.bits / 8)) (img.width * img.bits / 8) s
        else loop img.width (fun j s =>
          let s := readResult img.file (i * img.width * 4 + j * 4) 3 s
          { s with result := Function.update s.result (i * img.width * 4 + j * 4 + 3) 255 }) s) by
      have hpadded := hrow.padding (img.width * img.bits / 8)
      rwa [Nat.add_assoc, ← rowStep, Nat.add_assoc, ← Nat.succ_mul, ← Nat.succ_mul] at hpadded
    rcases img.depth with hbits | hbits
    · have hbytes : img.pixelBytes = 3 := by rw [Image.pixelBytes, hbits]
      rw [hbytes] at hV ⊢
      rw [if_neg (by rw [hbits]; decide)]
      refine loop_induct (fun j => AtRow img.file old tmp (headerSize + i * rowStep img + j * 3) 4
        (i * img.width + j) (storedByte img old)) ?_ fun j hj s hs => ?_
      · rw [Nat.zero_mul]
        exact hs
      · obtain ⟨hpos, hin, hout⟩ := hs.pixel
        rw [Nat.add_mul] at hpos hin hout
        refine ⟨?_, hs.filled.congr 1 (fun d hd k hk => ?_) fun b hb => ?_, hs.tmp⟩
        · rw [hpos, Nat.succ_mul]
          rfl
        · obtain rfl : d = 0 := by omega
          simp only [Nat.add_zero, Nat.add_mul (i * img.width) j]
          by_cases hk3 : k = 3
          · rw [hk3, Function.update_self, storedByte, if_pos ⟨hbits, rfl⟩]
          · rw [Function.update_of_ne (by omega), hin k (by omega), storedByte,
              if_neg fun h => hk3 h.2, hbytes, hV j hj k, Nat.add_mul]
        · rw [Nat.add_mul (_ + j), Nat.add_mul] at hb
          dsimp only
          rw [Function.update_of_ne (by omega), hout b (by omega)]
    · have hbytes : img.pixelBytes = 4 := by rw [Image.pixelBytes, hbits]
      have hrow : img.width * img.bits / 8 = img.width * 4 := by rw [hbits]; omega
      rw [hbytes] at hV ⊢
      rw [if_pos hbits, hrow, ← Nat.mul_assoc]
      refine hs.row fun j hj k _ => ?_
      rw [storedByte, if_neg (by rw [hbits]; exact fun h => nomatch h.1), hbytes]
      exact hV j hj k

/-! ## Decoding -/

/-- A row and its padding. -/
theorem stride_eq (img : Image) :
    img.stride = img.width * img.pixelBytes + padding (img.width * img.pixelBytes) := by
  rw [Image.stride, padding]
  split
  · omega
  · omega

/-- The bytes of a pixel are in the file. -/
theorem byte_mem (img : Image) {i k : Nat} (hi : i < img.height) (hj : j < img.width)
    (hk : k < img.pixelBytes) (d : UInt8) :
    (img.file[headerSize + i * img.stride + j * img.pixelBytes + k]?).getD d = img.byte i j k := by
  have hrow : img.width * img.pixelBytes ≤ img.stride := by
    rw [stride_eq]
    omega
  have hcolumn := Nat.mul_le_mul_right img.pixelBytes (Nat.succ_le_of_lt hj)
  have hrows := Nat.mul_le_mul_right img.stride (Nat.succ_le_of_lt hi)
  have hbody : img.file.length = headerSize + img.height * img.stride := img.body
  rw [Nat.succ_mul] at hcolumn hrows
  have hlt : headerSize + i * img.stride + j * img.pixelBytes + k < img.file.length := by omega
  rw [Image.byte, List.getD_eq_getElem?_getD, List.getElem?_eq_getElem hlt]
  rfl

/-- The byte that `read24BitmapFile` reads for byte `k` of a pixel of 4 bytes.  A row is taken to
end with padding when three times its width is no multiple of 4. -/
def Image.shifted (img : Image) (old : Nat → UInt8) (i j k : Nat) : UInt8 :=
  (img.file[headerSize + i * (img.width * 4 + img.width % 4) + j * 4 + k]?).getD
    (old ((i * img.width + j) * 3 + k))

/-- When both readers decode an image: with 24 bits if it is white, and with 32 bits if the bytes of
each pixel are the same, and the same as those that `read24BitmapFile` reads for it. -/
def Image.Lucky (img : Image) (old : Nat → UInt8) : Prop :=
  ∀ i < img.height, ∀ j < img.width,
    if img.bits = 24 then ∀ k < 3, img.byte i j k = 255
    else (∀ k < 4, img.byte i j k = img.byte i j 0) ∧
      ∀ k < 3, img.shifted old i j k = img.byte i j k

theorem rgbAt_eq {img : Image} {m : Nat → UInt8} :
    img.Decoded24 m ↔ ∀ i < img.height, ∀ j < img.width, ∀ k < 3,
      m ((i * img.width + j) * 3 + k) = img.byte i j k := by
  refine forall₂_congr fun i hi => forall₂_congr fun j hj => ?_
  rw [rgbAt, RGB.mk.injEq]
  constructor
  · rintro ⟨h0, h1, h2⟩ k hk
    match k, hk with
    | 0, _ => exact h0
    | 1, _ => exact h1
    | 2, _ => exact h2
  · exact fun h => ⟨h 0 (by decide), h 1 (by decide), h 2 (by decide)⟩

/-- No product overflows while a row is read, and neither reader writes outside the pixels of its
result or the three bytes of its padding buffer.
Both results are the image of the file if and only if the bytes of its pixels hide what the readers
get wrong: the fields of `RGBA`, whose first one is `A`, and in `read24BitmapFile` the padding of
rows of 4 bytes for each pixel. -/
theorem readers_decode_iff (img : Image) (old24 old tmp : Nat → UInt8) :
    (0 < img.height → img.width * img.bits < 2 ^ 31 ∧ img.height * img.width * 4 < 2 ^ 31) ∧
    (∀ b, img.height * img.width * 3 ≤ b →
      (read24BitmapFile img.file old24 tmp).result b = old24 b) ∧
    (∀ b, img.height * img.width * 4 ≤ b →
      (readBitmapFile img.file old tmp).result b = old b) ∧
    (∀ b, 3 ≤ b → (read24BitmapFile img.file old24 tmp).tmpBytes b = tmp b ∧
      (readBitmapFile img.file old tmp).tmpBytes b = tmp b) ∧
    ((img.Decoded24 (read24BitmapFile img.file old24 tmp).result ∧
      img.Decoded (readBitmapFile img.file old tmp).result) ↔ img.Lucky old24) := by
  have h24 := read24BitmapFile_spec img old24 tmp
  have h32 := readBitmapFile_spec img old tmp
  refine ⟨img.products_small, h24.filled.2, h32.filled.2,
    fun b hb => ⟨h24.tmp b hb, h32.tmp b hb⟩, ?_⟩
  have hpixel : ∀ i < img.height, ∀ j < img.width, i * img.width + j < img.height * img.width := by
    intro i hi j hj
    have := Nat.mul_le_mul_right img.width (Nat.succ_le_of_lt hi)
    rw [Nat.succ_mul] at this
    omega
  -- the bytes that the readers store
  have hbyte24 : ∀ i < img.height, ∀ j < img.width, ∀ k < 3,
      (read24BitmapFile img.file old24 tmp).result ((i * img.width + j) * 3 + k) =
        if img.bits = 24 then img.byte i j k else img.shifted old24 i j k := by
    intro i hi j hj k hk
    rw [h24.filled.1 _ (hpixel i hi j hj) k hk, readByte_at _ _ _ _ hj]
    rcases img.depth with hbits | hbits
    · have hbytes : img.pixelBytes = 3 := by rw [Image.pixelBytes, hbits]
      have hstep : rowStep24 img = img.stride := by rw [rowStep24, stride_eq, hbytes]
      rw [if_pos hbits, hstep, byte_mem img hi hj (by omega)]
    · have hbytes : img.pixelBytes = 4 := by rw [Image.pixelBytes, hbits]
      have hstep : rowStep24 img = img.width * 4 + img.width % 4 := by
        rw [rowStep24, hbytes, padding]
        split
        · omega
        · omega
      rw [if_neg (by rw [hbits]; decide), hstep, hbytes, Image.shifted]
  have hbyte : ∀ i < img.height, ∀ j < img.width, ∀ k < 4,
      (readBitmapFile img.file old tmp).result ((i * img.width + j) * 4 + k) =
        if img.bits = 24 ∧ k = 3 then 255 else img.byte i j k := by
    intro i hi j hj k hk
    have hstep : rowStep img = img.stride := by
      rw [rowStep, stride_eq]
      rcases img.depth with hbits | hbits
      · rw [Image.pixelBytes, hbits]
        congr 2
        omega
      · rw [Image.pixelBytes, hbits]
        congr 2
        omega
    rw [h32.filled.1 _ (hpixel i hi j hj) k hk, storedByte]
    by_cases hlast : img.bits = 24 ∧ k = 3
    · rw [if_pos hlast, if_pos hlast]
    · rw [if_neg hlast, if_neg hlast, readByte_at _ _ _ _ hj, hstep, byte_mem img hi hj]
      rcases img.depth with hbits | hbits
      · rw [Image.pixelBytes, hbits]
        have : k ≠ 3 := fun h => hlast ⟨hbits, h⟩
        omega
      · rw [Image.pixelBytes, hbits]
        exact hk
  rw [rgbAt_eq, Image.Decoded, ← forall₂_and]
  refine forall₂_congr fun i hi => ?_
  rw [← forall₂_and]
  refine forall₂_congr fun j hj => ?_
  rw [forall₂_congr fun k hk => by rw [hbyte24 i hi j hj k hk]]
  have h0 := (hbyte i hi j hj 0 (by decide)).trans (if_neg (by simp))
  have h1 := (hbyte i hi j hj 1 (by decide)).trans (if_neg (by simp))
  have h2 := (hbyte i hi j hj 2 (by decide)).trans (if_neg (by simp))
  have h3 := hbyte i hi j hj 3 (by decide)
  rw [Nat.add_zero] at h0
  rw [rgbaAt, h0, h1, h2, h3]
  dsimp only
  rcases img.depth with hbits | hbits
  · rw [if_pos ⟨hbits, rfl⟩, if_pos hbits]
    simp only [if_pos hbits]
    constructor
    · rintro ⟨-, hb, hg, hr, ha⟩ k hk
      match k, hk with
      | 0, _ => exact ha hbits
      | 1, _ => exact hb.trans (ha hbits)
      | 2, _ => exact hr.symm
    · intro h
      have hb := h 0 (by decide)
      have hg := h 1 (by decide)
      have hr := h 2 (by decide)
      exact ⟨fun _ _ => trivial, hg.trans hb.symm, hr.trans hg.symm, hr.symm, fun _ => hb⟩
  · have hnot : ¬img.bits = 24 := by rw [hbits]; decide
    simp only [hnot, if_false, false_implies, and_true]
    constructor
    · rintro ⟨hshift, hb, hg, hr⟩
      refine ⟨fun k hk => ?_, hshift⟩
      match k, hk with
      | 0, _ => rfl
      | 1, _ => exact hb
      | 2, _ => exact hg.trans hb
      | 3, _ => exact hr.trans (hg.trans hb)
    · rintro ⟨hsame, hshift⟩
      have hb := hsame 1 (by decide)
      have hg := hsame 2 (by decide)
      have hr := hsame 3 (by decide)
      exact ⟨hshift, hb, hg.trans hb.symm, hr.trans hg.symm⟩

/-- One blue pixel, in 24 bits. -/
def bluePixel : Image where
  file := List.replicate 18 0 ++ [1, 0, 0, 0, 1, 0, 0, 0, 1, 0, 24, 0] ++ List.replicate 24 0 ++
    [200, 0, 0, 0]
  width := 1
  height := 1
  bits := 24
  header := by decide
  depth := .inl rfl
  body := by decide
  small := by decide

/-- `readBitmapFile` stores 0 for its blue. -/
theorem blue_pixel_not_decoded :
    rgbaAt (readBitmapFile bluePixel.file (fun _ => 0) fun _ => 0).result 0 = ⟨200, 0, 0, 255⟩ ∧
    ¬bluePixel.Decoded (readBitmapFile bluePixel.file (fun _ => 0) fun _ => 0).result :=
  ⟨by decide, fun h => absurd (h 0 (by decide) 0 (by decide)).1 (by decide)⟩

end Xv6.Ulib.Bitmap

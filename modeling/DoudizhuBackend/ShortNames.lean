/-
# Short names

`helper_substr` of `html/lib/helper.php`: the start of a nickname, in characters.  It takes a byte
string apart with a byte-wise regular expression, so that what it counts are the matches of that
expression; on valid UTF-8 they are the characters other than `NUL` (`substrBytes_eq`).
-/
import DoudizhuBackend.GameData
import DoudizhuBackend.Tokens

open Php

namespace Helper

/-! ## The function -/

/-- A class of bytes of a regular expression. -/
def byteRange (first last : UInt8) : UInt8 → Bool := fun b => first ≤ b && b ≤ last

/-- The regular expression of `helper_substr`: its alternatives, and their bytes. -/
def utf8Pattern : List (Tokens.Pattern UInt8) :=
  let tail := byteRange 0x80 0xbf
  [[byteRange 0x01 0x7f],
    [byteRange 0xc2 0xdf, tail],
    [byteRange 0xe0 0xe0, byteRange 0xa0 0xbf, tail],
    [byteRange 0xe1 0xef, tail, tail],
    [byteRange 0xf0 0xf0, byteRange 0x90 0xbf, tail, tail],
    [byteRange 0xf1 0xf7, tail, tail, tail]]

/-- `array_slice` without keys. -/
def arraySlice {α : Type} (xs : List α) (offset length : ℤ) : List α :=
  if xs.length < offset then []
  else
    let offset := if offset < 0 then max (xs.length + offset) 0 else offset
    let length :=
      if length < 0 then xs.length - offset + length
      else if xs.length < offset + length then xs.length - offset
      else length
    (xs.drop offset.toNat).take length.toNat

/-- The bytes of a text in ASCII. -/
def dots (n : ℕ) : List UInt8 := List.replicate n 0x2e

/-- The loop of the branch for other encodings, from place `i` on: a byte above 129 takes the next one
with it. -/
def substrPairs (start sublen : ℤ) : ℤ → List UInt8 → List UInt8
  | _, [] => []
  | i, [b] => if start ≤ i ∧ i < start + sublen then [b] else []
  | i, b :: c :: string =>
      if 129 < b.toNat then
        (if start ≤ i ∧ i < start + sublen then [b, c] else []) ++
          substrPairs start sublen (i + 2) string
      else
        (if start ≤ i ∧ i < start + sublen then [b] else []) ++
          substrPairs start sublen (i + 1) (c :: string)

/-- `helper_substr` on byte strings. -/
def substrBytes (string : List UInt8) (sublen start : ℤ) (code : String) : List UInt8 :=
  if code = "UTF-8" then
    let ts := Tokens.matchAll utf8Pattern string
    if ts.length - start > sublen then (arraySlice ts start sublen).flatten ++ dots 2
    else (arraySlice ts start sublen).flatten
  else
    let tmpstr := substrPairs (start * 2) (sublen * 2) 0 string
    if tmpstr.length < string.length then tmpstr ++ dots 3 else tmpstr

/-! ## Characters -/

theorem byteRange_ofNat {first last : UInt8} {n : ℕ} (hn : n < 256)
    (h : first.toNat ≤ n ∧ n ≤ last.toNat) : byteRange first last (UInt8.ofNat n) = true := by
  have hmod : (UInt8.ofNat n).toNat = n := by simp [Nat.mod_eq_of_lt hn]
  simp only [byteRange, Bool.and_eq_true, decide_eq_true_eq, UInt8.le_iff_toNat_le, hmod]
  exact h

/-- The bytes behind the first one carry six bits each. -/
theorem byteRange_tail (v : ℕ) : byteRange 0x80 0xbf (UInt8.ofNat (v % 0x40 + 0x80)) = true :=
  byteRange_ofNat (by omega) (by simp; omega)

theorem exclusive_utf8Pattern : Tokens.Exclusive utf8Pattern where
  ne_nil := by simp [utf8Pattern]
  heads := by
    simp [utf8Pattern, byteRange, UInt8.le_iff_toNat_le]
    constructorm* _ ∧ _ <;> intro a <;> omega

/-- No alternative begins with the zero byte. -/
theorem matchAll_zero (string : List UInt8) :
    Tokens.matchAll utf8Pattern (0 :: string) = Tokens.matchAll utf8Pattern string := by
  apply Tokens.matchAll_cons_of_none exclusive_utf8Pattern.ne_nil
  simp [utf8Pattern, byteRange]

/-- Every other character is one match. -/
theorem fits_utf8EncodeChar {c : Char} (hc : c ≠ '\x00') :
    ∃ alt ∈ utf8Pattern, Tokens.Fits alt (String.utf8EncodeChar c) := by
  have hvalid : c.val.toNat < 0xd800 ∨ 0xdfff < c.val.toNat ∧ c.val.toNat < 0x110000 := c.valid
  have hpos : c.val.toNat ≠ 0 := by
    intro hzero
    exact hc (Char.toNat_inj.mp hzero)
  unfold String.utf8EncodeChar
  generalize c.val.toNat = v at hvalid hpos
  dsimp only
  split_ifs with h1 h2 h3
  · refine ⟨[byteRange 0x01 0x7f], by simp [utf8Pattern], .cons ?_ .nil⟩
    exact byteRange_ofNat (by omega) (by simp; omega)
  · refine ⟨[byteRange 0xc2 0xdf, byteRange 0x80 0xbf], by simp [utf8Pattern], ?_⟩
    refine .cons ?_ (.cons (byteRange_tail v) .nil)
    exact byteRange_ofNat (by omega) (by simp; omega)
  · by_cases hlow : v < 0x1000
    · -- the second byte of an overlong form would be lower
      refine ⟨[byteRange 0xe0 0xe0, byteRange 0xa0 0xbf, byteRange 0x80 0xbf], by simp [utf8Pattern], ?_⟩
      refine .cons ?_ (.cons ?_ (.cons (byteRange_tail v) .nil))
      · exact byteRange_ofNat (by omega) (by simp; omega)
      · exact byteRange_ofNat (by omega) (by simp; omega)
    · refine ⟨[byteRange 0xe1 0xef, byteRange 0x80 0xbf, byteRange 0x80 0xbf], by simp [utf8Pattern], ?_⟩
      refine .cons ?_ (.cons (byteRange_tail _) (.cons (byteRange_tail v) .nil))
      exact byteRange_ofNat (by omega) (by simp; omega)
  · by_cases hlow : v < 0x40000
    · refine ⟨[byteRange 0xf0 0xf0, byteRange 0x90 0xbf, byteRange 0x80 0xbf, byteRange 0x80 0xbf],
        by simp [utf8Pattern], ?_⟩
      refine .cons ?_ (.cons ?_ (.cons (byteRange_tail _) (.cons (byteRange_tail v) .nil)))
      · exact byteRange_ofNat (by omega) (by simp; omega)
      · exact byteRange_ofNat (by omega) (by simp; omega)
    · refine ⟨[byteRange 0xf1 0xf7, byteRange 0x80 0xbf, byteRange 0x80 0xbf, byteRange 0x80 0xbf],
        by simp [utf8Pattern], ?_⟩
      refine .cons ?_ (.cons (byteRange_tail _) (.cons (byteRange_tail _) (.cons (byteRange_tail v) .nil)))
      exact byteRange_ofNat (by omega) (by simp; omega)

/-- The matches in a text are its characters other than `NUL`. -/
theorem matchAll_utf8 (cs : List Char) : Tokens.matchAll utf8Pattern (cs.flatMap String.utf8EncodeChar) =
    (cs.filter (· ≠ '\x00')).map String.utf8EncodeChar := by
  induction cs with
  | nil => rfl
  | cons c cs ih =>
      rw [List.flatMap_cons]
      by_cases hc : c = '\x00'
      · rw [List.filter_cons_of_neg (by simpa using hc), hc]
        exact (matchAll_zero _).trans ih
      · obtain ⟨alt, halt, hfits⟩ := fits_utf8EncodeChar hc
        rw [List.filter_cons_of_pos (by simpa using hc), List.map_cons,
          Tokens.matchAll_append exclusive_utf8Pattern halt hfits, ih]

theorem arraySlice_zero {α : Type} (xs : List α) (n : ℕ) : arraySlice xs 0 n = xs.take n := by
  rw [arraySlice, if_neg (by simp)]
  simp only [lt_irrefl, if_false, Int.natCast_nonneg, not_lt.mpr, Int.toNat_zero, List.drop_zero,
    zero_add, sub_zero]
  split
  · rename_i hlt
    rw [Int.toNat_natCast, List.take_length, List.take_of_length_le (by omega)]
  · rw [Int.toNat_natCast]

theorem utf8Encode_ofList (cs : List Char) :
    utf8Encode (String.ofList cs) = cs.flatMap String.utf8EncodeChar := by
  rw [utf8Encode, String.toList_ofList]

/-- Two dots behind a text. -/
theorem utf8Encode_dots (cs : List Char) :
    utf8Encode (String.ofList cs ++ "..") = cs.flatMap String.utf8EncodeChar ++ dots 2 := by
  rw [utf8Encode, String.toList_append, String.toList_ofList, List.flatMap_append]
  rfl

/-- **On valid UTF-8 the function counts characters.** -/
theorem substrBytes_eq (s : String) (n : ℕ) :
    substrBytes (utf8Encode s) n 0 "UTF-8" = utf8Encode (substr (.str s) n) := by
  have hslice : ∀ cs : List Char, (arraySlice (cs.map String.utf8EncodeChar) 0 n).flatten =
      (cs.take n).flatMap String.utf8EncodeChar := by
    intro cs
    rw [arraySlice_zero, ← List.map_take, List.flatMap_def]
  rw [substrBytes, if_pos rfl, utf8Encode, matchAll_utf8, substr]
  simp only [hslice, List.length_map, sub_zero, Value.text, gt_iff_lt, Nat.cast_lt]
  split
  · rw [utf8Encode_dots]
  · rename_i hle
    rw [utf8Encode_ofList, List.take_of_length_le (by omega)]

/-- **Short names are prefixes of characters.**  For a text without `NUL` the function returns its
first characters, with two dots if there are more: again the bytes of a text. -/
theorem short_name (s : String) (hs : '\x00' ∉ s.toList) (n : ℕ) :
    substrBytes (utf8Encode s) n 0 "UTF-8" =
        (s.toList.take n).flatMap String.utf8EncodeChar ++ (if n < s.toList.length then dots 2 else []) ∧
      ∃ t, substrBytes (utf8Encode s) n 0 "UTF-8" = utf8Encode t := by
  have hfilter : s.toList.filter (· ≠ '\x00') = s.toList := by
    rw [List.filter_eq_self]
    intro c hc
    have hne : c ≠ '\x00' := by
      rintro rfl
      exact hs hc
    simpa using hne
  have heq := substrBytes_eq s n
  refine ⟨?_, _, heq⟩
  rw [heq, substr]
  simp only [Value.text, hfilter, gt_iff_lt]
  split
  · rw [utf8Encode_dots]
  · rename_i hle
    rw [utf8Encode_ofList, List.take_of_length_le (by omega), List.append_nil]

/-- A name of six characters, of one to three bytes. -/
theorem short_name_sample :
    substrBytes (utf8Encode "äb斗地主c") 4 0 "UTF-8" = utf8Encode "äb斗地.." := by
  have h := (short_name "äb斗地主c" (by decide) 4).1
  rw [show ((4 : ℕ) : ℤ) = 4 from rfl] at h
  rw [h]
  decide

end Helper

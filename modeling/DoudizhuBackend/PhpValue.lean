/-
# PHP values

The scalar values of PHP 5 and its dynamic conversions, as far as request handlers
that decode and encode JSON use them:

* `Value`: `null`, booleans, numbers, strings.  A PHP string is a byte string; the
  strings that are valid UTF-8 are `Value.str`, the others `Value.bytes` (only these
  two differ under `json_encode`, which fails on invalid UTF-8).
* `numeral`: PHP 5's reading of the longest numeric prefix of a string (leading blanks,
  sign, hexadecimal, fraction, exponent); a string is *numeric* if nothing is left over.
* `toNum`, `toBool`, `text`: the conversions made by `+`, by conditions and by `.`.
* `looseEq`, `looseLt`: the operators `==` and `<` of PHP 5.

Numbers are exact: integers and floats are one constructor over `ℚ`.  A number is finite: JSON
text such as `1e999`, which PHP reads as `INF`, is none of these values.  PHP computes with 64-bit
integers and doubles and prints a double with 14 digits; that agrees with the exact numbers on
whole numbers of at most 13 digits and on the sums of a few of them (`IsPlain`).  Where a result
depends on sums, its conditions ask for plain numbers.
-/
import Mathlib.Data.List.TakeWhile
import Mathlib.Data.Rat.Floor
import Mathlib.Algebra.Order.Ring.Rat
import Mathlib.Tactic.Common

namespace Php

/-- The scalar values of PHP.  `bytes` is a string that is not valid UTF-8. -/
inductive Value where
  | null
  | bool (b : Bool)
  | num (q : ℚ)
  | str (s : String)
  | bytes (b : List UInt8)
  deriving DecidableEq, Repr, Inhabited

/-! ## Numeric strings -/

/-- The blanks that PHP skips before a number. -/
def isBlank (c : Char) : Bool :=
  c == ' ' || c == '\t' || c == '\n' || c == '\r' || c == '\x0b' || c == '\x0c'

/-- The value of a digit, in any base up to 16. -/
def digitVal (c : Char) : ℕ :=
  if c.isDigit then c.toNat - '0'.toNat
  else if c.toNat < 'a'.toNat then c.toNat - 'A'.toNat + 10
  else c.toNat - 'a'.toNat + 10

/-- The value of a list of digits. -/
def digitsVal (base : ℕ) (ds : List Char) : ℕ :=
  ds.foldl (fun acc c => acc * base + digitVal c) 0

/-- A hexadecimal digit of either case. -/
def isHexDigit (c : Char) : Bool :=
  c.isDigit || ('a' ≤ c && c ≤ 'f') || ('A' ≤ c && c ≤ 'F')

/-- The optional sign in front of a number, and what follows it. -/
def splitSign : List Char → Bool × List Char
  | '-' :: cs => (true, cs)
  | '+' :: cs => (false, cs)
  | cs => (false, cs)

/-- The optional exponent after a mantissa: its value (`0` if there is none) and what
follows it.  An `e` that no digit follows is not part of the number. -/
def splitExponent : List Char → ℤ × List Char
  | c :: cs =>
      if c == 'e' || c == 'E' then
        let (neg, rest) := splitSign cs
        let ds := rest.takeWhile Char.isDigit
        if ds.isEmpty then (0, c :: cs)
        else
          let e : ℤ := digitsVal 10 ds
          (if neg then -e else e, rest.dropWhile Char.isDigit)
      else (0, c :: cs)
  | [] => (0, [])

/-- A decimal number: digits, optional fraction, optional exponent.  `none` if no digit
is found. -/
def decimal (cs : List Char) : Option (ℚ × List Char) :=
  let ip := cs.takeWhile Char.isDigit
  let rest := cs.dropWhile Char.isDigit
  let (fp, rest) := match rest with
    | '.' :: tail =>
        if ip.isEmpty && (tail.takeWhile Char.isDigit).isEmpty then ([], rest)
        else (tail.takeWhile Char.isDigit, tail.dropWhile Char.isDigit)
    | _ => ([], rest)
  if ip.isEmpty && fp.isEmpty then none
  else
    let (e, rest) := splitExponent rest
    some ((digitsVal 10 (ip ++ fp) : ℚ) * (10 : ℚ) ^ (e - fp.length), rest)

/-- A number without its sign: `0x` starts a hexadecimal one. -/
def unsigned : List Char → Option (ℚ × List Char)
  | '0' :: 'x' :: cs => some (digitsVal 16 (cs.takeWhile isHexDigit), cs.dropWhile isHexDigit)
  | '0' :: 'X' :: cs => some (digitsVal 16 (cs.takeWhile isHexDigit), cs.dropWhile isHexDigit)
  | cs => decimal cs

/-- The numeric prefix of a string and the rest of the string, as PHP 5 reads it. -/
def numeral (cs : List Char) : Option (ℚ × List Char) :=
  let (neg, rest) := splitSign (cs.dropWhile isBlank)
  (unsigned rest).map fun (q, tail) => (if neg then -q else q, tail)

/-- The number a string denotes if it is numeric as a whole. -/
def numericString (s : String) : Option ℚ :=
  match numeral s.toList with
  | some (q, []) => some q
  | _ => none

/-- The number a string counts for in arithmetic: its numeric prefix, else `0`. -/
def numericPrefix (s : String) : ℚ :=
  match numeral s.toList with
  | some (q, _) => q
  | none => 0

/-- The bytes of an invalid string, read as characters: enough for its numeric prefix,
which is plain ASCII. -/
def latin1 (b : List UInt8) : String :=
  String.ofList (b.map fun x => Char.ofNat x.toNat)

/-! ## Bytes and text -/

/-- The bytes of a text. -/
def utf8Encode (s : String) : List UInt8 := s.toList.flatMap String.utf8EncodeChar

/-- A continuation byte of UTF-8, and the six bits it carries. -/
def contBits (b : UInt8) : Option ℕ :=
  if 0x80 ≤ b && b < 0xc0 then some (b.toNat - 0x80) else none

/-- The character with the code `n`, if it needs the given number of bytes: no overlong
form, no surrogate, nothing above `0x10ffff`. -/
def utf8Char (lo n : ℕ) : Option Char :=
  if lo ≤ n && n.isValidChar then some (Char.ofNat n) else none

/-- The text that a list of bytes encodes, or nothing if it is not valid UTF-8. -/
def utf8Decode : List UInt8 → Option (List Char)
  | [] => some []
  | a :: tail =>
      if a < 0x80 then (utf8Decode tail).map (Char.ofNat a.toNat :: ·)
      else match tail with
        | [] => none
        | b :: tail =>
            if a < 0xe0 then do
              let c ← utf8Char 0x80 ((a.toNat - 0xc0) * 64 + (← contBits b))
              (utf8Decode tail).map (c :: ·)
            else match tail with
              | [] => none
              | c :: tail =>
                  if a < 0xf0 then do
                    let ch ← utf8Char 0x800
                      (((a.toNat - 0xe0) * 64 + (← contBits b)) * 64 + (← contBits c))
                    (utf8Decode tail).map (ch :: ·)
                  else match tail with
                    | [] => none
                    | d :: tail => do
                        let ch ← utf8Char 0x10000
                          ((((a.toNat - 0xf0) * 64 + (← contBits b)) * 64 + (← contBits c)) * 64
                            + (← contBits d))
                        (utf8Decode tail).map (ch :: ·)

/-- The string that a list of bytes is. -/
def Value.ofBytes (b : List UInt8) : Value :=
  (utf8Decode b).elim (.bytes b) fun cs => .str (String.ofList cs)

/-! ## Conversions -/

namespace Value

/-- The number a value counts for in arithmetic. -/
def toNum : Value → ℚ
  | null => 0
  | bool b => if b then 1 else 0
  | num q => q
  | str s => numericPrefix s
  | bytes b => numericPrefix (latin1 b)

/-- The truth value of a value in a condition. -/
def toBool : Value → Bool
  | null => false
  | bool b => b
  | num q => q ≠ 0
  | str s => s ≠ "" && s ≠ "0"
  | bytes b => b ≠ []

/-- The integer `intval` makes of a value: a string is read in base 10 up to the first
character that is not a digit. -/
def intval : Value → ℤ
  | null => 0
  | bool b => if b then 1 else 0
  | num q => if 0 ≤ q then ⌊q⌋ else ⌈q⌉
  | str s => intvalChars s.toList
  | bytes b => intvalChars (latin1 b).toList
where
  intvalChars (cs : List Char) : ℤ :=
    let (neg, rest) := splitSign (cs.dropWhile isBlank)
    let n : ℤ := digitsVal 10 (rest.takeWhile Char.isDigit)
    if neg then -n else n

end Value

/-- The decimal digits of a fraction `0 ≤ q < 1`, at most `n` of them, without trailing
zeros. -/
def fractionDigits (n : ℕ) (q : ℚ) : List Char :=
  let scaled := ⌊q * 10 ^ n⌋.toNat
  let ds := (toString scaled).toList
  let padded := List.replicate (n - ds.length) '0' ++ ds
  (padded.reverse.dropWhile (· == '0')).reverse

/-- The text of a number: an integer without fraction, otherwise the decimal fraction
with at most 14 digits.  A double from `10^14` on is printed with an exponent, which is left out. -/
def numText (q : ℚ) : String :=
  if q.den = 1 then toString q.num
  else
    let a := |q|
    let body := toString ⌊a⌋ ++ "." ++ String.ofList (fractionDigits 14 (a - ⌊a⌋))
    if q < 0 then "-" ++ body else body

/-- **A plain number**: whole, and of at most 13 digits. -/
def IsPlain (q : ℚ) : Prop := q.den = 1 ∧ -10 ^ 13 < q ∧ q < 10 ^ 13

instance (q : ℚ) : Decidable (IsPlain q) := inferInstanceAs (Decidable (_ ∧ _))

/-- A value that JSON text holds without rounding: if it is a number, then a plain one. -/
def Value.IsExact : Value → Prop
  | .num q => IsPlain q
  | _ => True

instance : (v : Value) → Decidable v.IsExact
  | .num q => inferInstanceAs (Decidable (IsPlain q))
  | .null | .bool _ | .str _ | .bytes _ => isTrue trivial

namespace Value

/-- The text of a value, as string concatenation makes it. -/
def text : Value → String
  | null => ""
  | bool b => if b then "1" else ""
  | num q => numText q
  | str s => s
  | bytes b => latin1 b

/-! ## Comparison -/

/-- Two strings under `==`: numerically if both are numeric, else character by
character. -/
def looseEqStr (s t : String) : Bool :=
  match numericString s, numericString t with
  | some p, some q => p == q
  | _, _ => s == t

/-- Two strings under `<`. -/
def looseLtStr (s t : String) : Bool :=
  match numericString s, numericString t with
  | some p, some q => p < q
  | _, _ => s < t

/-- The operator `==` of PHP 5. -/
def looseEq : Value → Value → Bool
  | bool a, v => a == v.toBool
  | v, bool b => v.toBool == b
  | null, str s => s == ""
  | str s, null => s == ""
  | null, v => !v.toBool
  | v, null => !v.toBool
  | num p, num q => p == q
  | num p, v => p == v.toNum
  | v, num q => v.toNum == q
  | str s, str t => looseEqStr s t
  | bytes a, bytes b => a == b
  | str _, bytes _ => false
  | bytes _, str _ => false

/-- The operator `<` of PHP 5. -/
def looseLt : Value → Value → Bool
  | bool a, v => !a && v.toBool
  | v, bool b => !v.toBool && b
  | null, str s => s ≠ ""
  | str _, null => false
  | null, v => v.toBool
  | _, null => false
  | num p, num q => p < q
  | num p, v => p < v.toNum
  | v, num q => v.toNum < q
  | v, w => looseLtStr v.text w.text

@[simp] theorem toNum_num (q : ℚ) : (num q).toNum = q := rfl

@[simp] theorem toNum_null : null.toNum = 0 := rfl

@[simp] theorem looseEq_num_num (p q : ℚ) : looseEq (num p) (num q) = (p == q) := rfl

@[simp] theorem looseLt_num_num (p q : ℚ) : looseLt (num p) (num q) = decide (p < q) := rfl

/-- A string equals itself. -/
theorem looseEq_str_self (s : String) : looseEq (str s) (str s) = true := by
  simp only [looseEq, looseEqStr]
  cases numericString s <;> simp

/-- Equality of strings is symmetric. -/
theorem looseEq_str_comm (s t : String) : looseEq (str s) (str t) = looseEq (str t) (str s) := by
  simp only [looseEq, looseEqStr]
  cases numericString s <;> cases numericString t <;> exact BEq.comm

/-- A string that is not numeric equals, among the strings, only itself. -/
theorem eq_of_looseEq_str {s t : String} (hs : numericString s = none)
    (h : looseEq (str s) (str t) = true) : s = t := by
  simp only [looseEq, looseEqStr, hs] at h
  simpa using h

end Value

/-! ## The text of an integer -/

/-- A digit is read back. -/
theorem digitVal_digitChar {n : ℕ} (h : n < 10) : digitVal n.digitChar = n := by
  have hdigit : n.digitChar.isDigit = true := by rw [Nat.isDigit_digitChar, decide_eq_true h]
  rw [digitVal, if_pos hdigit, Nat.toNat_digitChar_of_lt_ten h]
  exact Nat.add_sub_cancel_left 48 n

/-- The value of digits with one more. -/
theorem digitsVal_append (ds : List Char) (c : Char) :
    digitsVal 10 (ds ++ [c]) = digitsVal 10 ds * 10 + digitVal c := by
  simp [digitsVal]

/-- The digits of a number have its value. -/
theorem digitsVal_toDigits (n : ℕ) : digitsVal 10 (Nat.toDigits 10 n) = n := by
  induction n using Nat.strong_induction_on with
  | _ n ih =>
      rw [Nat.toDigits_eq_if (by decide)]
      split
      · rename_i h
        show 0 * 10 + digitVal n.digitChar = n
        rw [digitVal_digitChar h]
        omega
      · rename_i h
        rw [digitsVal_append, ih (n / 10) (by omega), digitVal_digitChar (Nat.mod_lt n (by decide))]
        omega

/-- A numeral has digits only. -/
theorem isDigit_of_mem_toDigits {n : ℕ} {c : Char} (h : c ∈ Nat.toDigits 10 n) : c.isDigit = true :=
  Nat.isDigit_of_mem_toDigits (by decide) (by decide) h

/-- A digit is neither a blank nor a sign. -/
theorem not_isBlank_of_isDigit {c : Char} (h : c.isDigit = true) : isBlank c = false ∧ c ≠ '-' ∧ c ≠ '+' := by
  refine ⟨?_, ?_, ?_⟩
  · cases hblank : isBlank c with
    | false => rfl
    | true =>
        simp only [isBlank, Bool.or_eq_true, beq_iff_eq] at hblank
        rcases hblank with ((((rfl | rfl) | rfl) | rfl) | rfl) | rfl <;> cases h
  · rintro rfl; cases h
  · rintro rfl; cases h

/-- The sign of an integer and its digits. -/
def intChars (n : ℤ) : List Char :=
  if n < 0 then '-' :: Nat.toDigits 10 n.natAbs else Nat.toDigits 10 n.natAbs

/-- The text of an integer. -/
theorem text_intCast (n : ℤ) : (Value.num (n : ℚ)).text.toList = intChars n := by
  rw [Value.text, numText, if_pos (Rat.den_intCast n), Rat.num_intCast]
  cases n with
  | ofNat n =>
      show (toString n).toList = _
      rw [Nat.toString_eq_ofList_toDigits, String.toList_ofList, intChars, if_neg (by simp)]
      rfl
  | negSucc n =>
      show ("-" ++ toString (n + 1)).toList = _
      rw [String.toList_append, Nat.toString_eq_ofList_toDigits, intChars,
        if_pos (Int.negSucc_lt_zero n)]
      exact congrArg ('-' :: ·) String.toList_ofList

/-- The sign and the digits are read back. -/
theorem splitSign_intChars (n : ℤ) :
    splitSign ((intChars n).dropWhile isBlank) = (decide (n < 0), Nat.toDigits 10 n.natAbs) := by
  unfold intChars
  split
  · rename_i h
    rw [List.dropWhile_cons_of_neg (by decide), decide_eq_true h]
    rfl
  · rename_i h
    rw [decide_eq_false h]
    cases hds : Nat.toDigits 10 n.natAbs with
    | nil => exact absurd hds Nat.toDigits_ne_nil
    | cons c cs =>
        have hc : c.isDigit = true := isDigit_of_mem_toDigits (n := n.natAbs) (by rw [hds]; simp)
        obtain ⟨hblank, hminus, hplus⟩ := not_isBlank_of_isDigit hc
        rw [List.dropWhile_cons_of_neg (by simp [hblank])]
        unfold splitSign
        split
        · simp_all
        · simp_all
        · rfl

/-- A numeral ends at its end. -/
theorem takeWhile_toDigits (n : ℕ) :
    (Nat.toDigits 10 n).takeWhile Char.isDigit = Nat.toDigits 10 n :=
  List.takeWhile_eq_self_iff.mpr fun _ hc => isDigit_of_mem_toDigits hc

/-- Sign and absolute value make the number. -/
theorem signed_natAbs (n : ℤ) :
    (if decide (n < 0) then -((n.natAbs : ℕ) : ℤ) else ((n.natAbs : ℕ) : ℤ)) = n := by
  split
  · rename_i h
    have := of_decide_eq_true h
    omega
  · rename_i h
    have := of_decide_eq_false (Bool.not_eq_true _ ▸ h)
    omega

/-- `intval` reads the text of an integer back. -/
theorem intval_text_intCast (n : ℤ) : (Value.str (Value.num (n : ℚ)).text).intval = n := by
  show Value.intval.intvalChars (Value.num (n : ℚ)).text.toList = n
  rw [text_intCast]
  unfold Value.intval.intvalChars
  rw [splitSign_intChars]
  dsimp only
  rw [takeWhile_toDigits, digitsVal_toDigits]
  exact signed_natAbs n

end Php

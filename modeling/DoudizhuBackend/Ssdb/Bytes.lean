/-
# Byte strings and the numbers written in them

`ssdb-master/src/util/bytes.h` and `strings.h`: what the server and its clients do with
byte strings.  `Bytes` compare as `Bytes::compare` does (`memcmp`, the shorter one first),
which is the lexicographic order of lists.

* `str` prints an integer in decimal, `strtoll` reads one: leading white space, a sign,
  digits, and a value outside `int64_t` becomes the nearest bound.
* `bigEndian` is the 8-byte image that `big_endian` prepares for a key; it keeps the order.
-/
import Mathlib.Data.List.Lex
import Mathlib.Data.Int.Basic
import Mathlib.Algebra.Order.Ring.Nat
import Mathlib.Algebra.Order.Ring.Int
import Mathlib.Tactic.Ring

namespace Ssdb

/-- A byte. -/
abbrev Byte := Fin 256

/-- A string of bytes. -/
abbrev Bytes := List Byte

instance neZero256 : NeZero 256 := ⟨by decide⟩

/-- The byte of an ASCII character. -/
def chr (c : Char) : Byte := Fin.ofNat 256 c.toNat

/-- The bytes of an ASCII text. -/
def ascii (s : String) : Bytes := s.toList.map chr

/-- Only the empty string is not behind the empty string. -/
theorem nil_lt_iff (s : Bytes) : [] < s ↔ s ≠ [] := by
  cases s with
  | nil => simp
  | cons b s => simp

/-! ## Decimal numbers -/

/-- The character of a digit. -/
def digit (d : ℕ) : Byte := Fin.ofNat 256 (48 + d)

/-- Whether a byte is the character of a digit. -/
def isDigit (b : Byte) : Bool := 48 ≤ b.val && b.val ≤ 57

/-- `isspace` in the C locale. -/
def isSpace (b : Byte) : Bool := b.val == 32 || (9 ≤ b.val && b.val ≤ 13)

/-- The value of a string of digits. -/
def digitsValue (s : Bytes) : ℕ := s.foldl (fun n b => 10 * n + (b.val - 48)) 0

/-- The decimal digits, with fuel. -/
def decimalAux : ℕ → ℕ → Bytes
  | 0, _ => []
  | fuel + 1, n => if n < 10 then [digit n] else decimalAux fuel (n / 10) ++ [digit (n % 10)]

/-- `%d` of a natural number; `n + 1` bounds the number of digits. -/
def decimal (n : ℕ) : Bytes := decimalAux (n + 1) n

/-- `str(int64_t)`. -/
def str (z : ℤ) : Bytes := if z < 0 then chr '-' :: decimal z.natAbs else decimal z.natAbs

/-- The value of `strtoll` before the bounds of `int64_t` are applied. -/
def readInt (s : Bytes) : ℤ :=
  match s.dropWhile isSpace with
  | [] => 0
  | b :: t =>
      if b = chr '-' then -(digitsValue (t.takeWhile isDigit) : ℤ)
      else if b = chr '+' then digitsValue (t.takeWhile isDigit)
      else digitsValue ((b :: t).takeWhile isDigit)

/-- `strtoll(s, NULL, 10)`, the value of `str_to_int64`. -/
def strtoll (s : Bytes) : ℤ := max (-2 ^ 63) (min (readInt s) (2 ^ 63 - 1))

/-- `atoi`: the result of `strtol` cut down to an `int`. -/
def atoi (s : Bytes) : ℤ := (strtoll s).bmod (2 ^ 32)

/-- `(int)` of a size. -/
def toInt (n : ℕ) : ℤ := (n : ℤ).bmod (2 ^ 32)

/-- `int64_t` addition, taken modulo `2^64`. -/
def addInt64 (x y : ℤ) : ℤ := (x + y).bmod (2 ^ 64)

/-- The range of `int64_t`. -/
def IsInt64 (z : ℤ) : Prop := -2 ^ 63 ≤ z ∧ z < 2 ^ 63

instance (z : ℤ) : Decidable (IsInt64 z) := inferInstanceAs (Decidable (_ ∧ _))

/-- The range of `int`. -/
def IsInt32 (z : ℤ) : Prop := -2 ^ 31 ≤ z ∧ z < 2 ^ 31

instance decidableIsInt32 (z : ℤ) : Decidable (IsInt32 z) := inferInstanceAs (Decidable (_ ∧ _))

/-- Small sizes fit an `int`. -/
theorem toInt_of_lt {n : ℕ} (h : n < 2 ^ 31) : toInt n = n :=
  Int.bmod_eq_of_le (by omega) (by omega)

/-- An `int` is below `2^31`. -/
theorem toInt_lt (n : ℕ) : toInt n < 2 ^ 31 := by
  have h : toInt n < (((2 ^ 32 : ℕ) : ℤ) + 1) / 2 := Int.bmod_lt (by decide)
  omega

/-- The cast never makes a size greater. -/
theorem toInt_le (n : ℕ) : toInt n ≤ n := by
  by_cases h : n < 2 ^ 31
  · exact (toInt_of_lt h).le
  · have := toInt_lt n
    omega

/-- The code of a digit. -/
theorem digit_val {d : ℕ} (h : d < 10) : (digit d).val = 48 + d := by
  show (48 + d) % 256 = 48 + d
  omega

theorem isDigit_digit {d : ℕ} (h : d < 10) : isDigit (digit d) = true := by
  simp only [isDigit, digit_val h, Bool.and_eq_true, decide_eq_true_eq]
  omega

/-- A numeral has a digit. -/
theorem decimalAux_ne_nil (fuel n : ℕ) : decimalAux (fuel + 1) n ≠ [] := by
  rw [decimalAux]
  split <;> simp

theorem decimal_ne_nil (n : ℕ) : decimal n ≠ [] := decimalAux_ne_nil n n

/-- A numeral has digits only. -/
theorem isDigit_of_mem_decimalAux : ∀ (fuel n : ℕ), ∀ b ∈ decimalAux fuel n, isDigit b = true := by
  intro fuel
  induction fuel with
  | zero => intro n b hb; simp [decimalAux] at hb
  | succ fuel ih =>
      intro n b hb
      rw [decimalAux] at hb
      split at hb
      · rename_i hlt
        rw [List.mem_singleton.mp hb]
        exact isDigit_digit hlt
      · rcases List.mem_append.mp hb with hb | hb
        · exact ih _ b hb
        · rw [List.mem_singleton.mp hb]
          exact isDigit_digit (Nat.mod_lt _ (by omega))

theorem isDigit_of_mem_decimal {n : ℕ} {b : Byte} (h : b ∈ decimal n) : isDigit b = true :=
  isDigit_of_mem_decimalAux _ _ b h

/-- The value of a numeral with one more digit. -/
theorem digitsValue_append_singleton (s : Bytes) (b : Byte) :
    digitsValue (s ++ [b]) = 10 * digitsValue s + (b.val - 48) := by
  simp [digitsValue]

/-- The value of the digits of a number, with enough fuel. -/
theorem digitsValue_decimalAux : ∀ (fuel n : ℕ), n < fuel → digitsValue (decimalAux fuel n) = n := by
  intro fuel
  induction fuel with
  | zero => intro n h; omega
  | succ fuel ih =>
      intro n h
      rw [decimalAux]
      split
      · rename_i hlt
        simp [digitsValue, digit_val hlt]
      · rw [digitsValue_append_singleton, ih (n / 10) (by omega), digit_val (Nat.mod_lt _ (by omega))]
        omega

/-- The value of the digits of a number. -/
theorem digitsValue_decimal (n : ℕ) : digitsValue (decimal n) = n :=
  digitsValue_decimalAux _ _ (Nat.lt_succ_self n)

/-- A number below `10^k` has at most `k` digits. -/
theorem length_decimalAux_le : ∀ (k fuel n : ℕ), n < 10 ^ (k + 1) →
    (decimalAux fuel n).length ≤ k + 1 := by
  intro k
  induction k with
  | zero =>
      intro fuel n h
      cases fuel with
      | zero => simp [decimalAux]
      | succ fuel => simp [decimalAux, if_pos (show n < 10 by simpa using h)]
  | succ k ih =>
      intro fuel n h
      cases fuel with
      | zero => simp [decimalAux]
      | succ fuel =>
          rw [decimalAux]
          split
          · simp
          · have hlt : n / 10 < 10 ^ (k + 1) := by
              apply Nat.div_lt_of_lt_mul
              rw [← Nat.pow_succ']
              exact h
            have := ih fuel (n / 10) hlt
            simp only [List.length_append, List.length_singleton]
            omega

/-- How long a numeral can be. -/
theorem length_decimal_le {k n : ℕ} (h : n < 10 ^ (k + 1)) : (decimal n).length ≤ k + 1 :=
  length_decimalAux_le k _ n h

/-- A natural number has no sign. -/
theorem str_natCast (n : ℕ) : str (n : ℤ) = decimal n := by
  rw [str, if_neg (by omega), Int.natAbs_natCast]

/-! ## Reading a printed number back -/

/-- A digit is no blank. -/
theorem isSpace_eq_false {b : Byte} (h : isDigit b = true) : isSpace b = false := by
  simp only [isDigit, isSpace, Bool.and_eq_true, decide_eq_true_eq, Bool.or_eq_false_iff,
    beq_eq_false_iff_ne, Bool.and_eq_false_iff, decide_eq_false_iff_not] at *
  omega

/-- A digit is no sign. -/
theorem ne_sign {b : Byte} (h : isDigit b = true) : b ≠ chr '-' ∧ b ≠ chr '+' := by
  constructor
  all_goals
    rintro rfl
    revert h
    decide

/-- A numeral ends before what is no digit. -/
theorem takeWhile_isDigit_decimal (n : ℕ) (t : Bytes) (ht : ∀ b ∈ t.head?, isDigit b = false) :
    (decimal n ++ t).takeWhile isDigit = decimal n := by
  rw [List.takeWhile_append_of_pos fun b hb => isDigit_of_mem_decimal hb]
  cases t with
  | nil => simp
  | cons b t => simp [ht b (by simp)]

/-- `strtol` stops at the first byte that is not a digit. -/
theorem readInt_decimal_append (n : ℕ) (t : Bytes) (ht : ∀ b ∈ t.head?, isDigit b = false) :
    readInt (decimal n ++ t) = n := by
  obtain ⟨b, u, hu⟩ : ∃ b u, decimal n = b :: u := List.exists_cons_of_ne_nil (decimal_ne_nil n)
  have hb : isDigit b = true := isDigit_of_mem_decimal (n := n) (by simp [hu])
  have htake := takeWhile_isDigit_decimal n t ht
  rw [hu, List.cons_append] at htake
  have hdrop : (b :: (u ++ t)).dropWhile isSpace = b :: (u ++ t) := by
    rw [List.dropWhile_cons_of_neg (by simp [isSpace_eq_false hb])]
  rw [hu, List.cons_append, readInt, hdrop]
  simp only [if_neg (ne_sign hb).1, if_neg (ne_sign hb).2, htake]
  rw [← hu, digitsValue_decimal]

/-- A number is read back from its text. -/
theorem readInt_str (z : ℤ) : readInt (str z) = z := by
  rw [str]
  split
  · rename_i hneg
    have hspace : isSpace (chr '-') = false := by decide
    have hdigits : (decimal z.natAbs).takeWhile isDigit = decimal z.natAbs := by
      have := takeWhile_isDigit_decimal z.natAbs [] (by simp)
      simpa using this
    rw [readInt, List.dropWhile_cons_of_neg (by simp [hspace])]
    simp only [if_true, hdigits, digitsValue_decimal]
    omega
  · have := readInt_decimal_append z.natAbs [] (by simp)
    rw [List.append_nil] at this
    rw [this]
    omega

/-- Printing and reading an `int64_t`. -/
theorem strtoll_str {z : ℤ} (h : IsInt64 z) : strtoll (str z) = z := by
  obtain ⟨hlow, hhigh⟩ := h
  rw [strtoll, readInt_str, min_eq_left (by omega), max_eq_right hlow]

/-- `strtoll` stays within its range. -/
theorem isInt64_strtoll (s : Bytes) : IsInt64 (strtoll s) := by
  constructor
  · exact le_max_left _ _
  · rw [strtoll]
    omega

/-- `atoi` of the text of an `int`. -/
theorem atoi_str {z : ℤ} (h : IsInt32 z) : atoi (str z) = z := by
  obtain ⟨hlow, hhigh⟩ := h
  simp only [atoi, strtoll_str ⟨show -2 ^ 63 ≤ z by omega, show z < 2 ^ 63 by omega⟩]
  exact Int.bmod_eq_of_le (by omega) (by omega)

/-- `atoi` stays within its range. -/
theorem isInt32_atoi (s : Bytes) : IsInt32 (atoi s) := by
  have hlow := Int.le_bmod (x := strtoll s) (m := 2 ^ 32) (by decide)
  have hhigh := Int.bmod_lt (x := strtoll s) (m := 2 ^ 32) (by decide)
  constructor <;> simp only [atoi] <;> omega

/-- Two numbers do not have one text. -/
theorem str_injective {x y : ℤ} (h : str x = str y) : x = y := by
  rw [← readInt_str x, h, readInt_str]

/-! ## Big-endian numbers -/

/-- The low `w` bytes of a number, the highest first. -/
def bigEndianAux : ℕ → ℕ → Bytes
  | 0, _ => []
  | w + 1, n => Fin.ofNat 256 (n / 256 ^ w) :: bigEndianAux w (n % 256 ^ w)

/-- The image of a `uint64_t` after `big_endian`. -/
def bigEndian (n : ℕ) : Bytes := bigEndianAux 8 n

/-- The number with a big-endian image. -/
def ofBigEndian : Bytes → ℕ
  | [] => 0
  | b :: t => b.val * 256 ^ t.length + ofBigEndian t

/-- How many bytes there are. -/
@[simp]
theorem length_bigEndianAux : ∀ w n : ℕ, (bigEndianAux w n).length = w := by
  intro w
  induction w with
  | zero => intro n; rfl
  | succ w ih => intro n; simp [bigEndianAux, ih]

@[simp]
theorem length_bigEndian (n : ℕ) : (bigEndian n).length = 8 := length_bigEndianAux 8 n

/-- The first byte is one. -/
theorem div_lt_256 {w n : ℕ} (h : n < 256 ^ (w + 1)) : n / 256 ^ w < 256 := by
  apply Nat.div_lt_of_lt_mul
  rw [← Nat.pow_succ]
  exact h

/-- A number is read back from its bytes. -/
theorem ofBigEndian_bigEndianAux : ∀ w n : ℕ, n < 256 ^ w → ofBigEndian (bigEndianAux w n) = n := by
  intro w
  induction w with
  | zero => intro n h; rw [Nat.pow_zero] at h; show 0 = n; omega
  | succ w ih =>
      intro n h
      have hdigit : (Fin.ofNat 256 (n / 256 ^ w)).val = n / 256 ^ w :=
        Nat.mod_eq_of_lt (div_lt_256 h)
      rw [bigEndianAux, ofBigEndian, length_bigEndianAux, hdigit,
        ih _ (Nat.mod_lt _ (Nat.pow_pos (by omega)))]
      exact Nat.div_add_mod' n (256 ^ w)

/-- A number of 64 bits is read back from its bytes. -/
theorem ofBigEndian_bigEndian {n : ℕ} (h : n < 2 ^ 64) : ofBigEndian (bigEndian n) = n :=
  ofBigEndian_bigEndianAux 8 n h

/-- Two numbers do not have the same bytes. -/
theorem bigEndian_inj {m n : ℕ} (hm : m < 2 ^ 64) (hn : n < 2 ^ 64) (h : bigEndian m = bigEndian n) :
    m = n := by
  rw [← ofBigEndian_bigEndian hm, h, ofBigEndian_bigEndian hn]

/-- The image keeps the order. -/
theorem bigEndianAux_lt : ∀ {w m n : ℕ}, m < n → n < 256 ^ w → bigEndianAux w m < bigEndianAux w n := by
  intro w
  induction w with
  | zero => intro m n hlt hn; rw [Nat.pow_zero] at hn; omega
  | succ w ih =>
      intro m n hlt hn
      rw [bigEndianAux, bigEndianAux, List.cons_lt_cons_iff]
      have hle : m / 256 ^ w ≤ n / 256 ^ w := Nat.div_le_div_right hlt.le
      have hndig := div_lt_256 hn
      rcases Nat.lt_or_eq_of_le hle with hdiv | hdiv
      · left
        show (m / 256 ^ w) % 256 < (n / 256 ^ w) % 256
        rwa [Nat.mod_eq_of_lt (by omega), Nat.mod_eq_of_lt hndig]
      · right
        refine ⟨by rw [hdiv], ih ?_ (Nat.mod_lt _ (Nat.pow_pos (by omega)))⟩
        have hm := Nat.div_add_mod m (256 ^ w)
        have hn := Nat.div_add_mod n (256 ^ w)
        rw [hdiv] at hm
        omega

/-- The bytes are in the order of the numbers. -/
theorem bigEndian_lt {m n : ℕ} (h : m < n) (hn : n < 2 ^ 64) : bigEndian m < bigEndian n :=
  bigEndianAux_lt h hn

/-- And in no other. -/
theorem bigEndian_lt_iff {m n : ℕ} (hm : m < 2 ^ 64) (hn : n < 2 ^ 64) :
    bigEndian m < bigEndian n ↔ m < n := by
  refine ⟨?_, fun h => bigEndian_lt h hn⟩
  intro h
  by_contra hle
  rcases Nat.lt_or_eq_of_le (Nat.le_of_not_lt hle) with hlt | rfl
  · exact List.lt_asymm h (bigEndian_lt hlt hm)
  · exact List.lt_irrefl _ h

/-- The number of some bytes fits them. -/
theorem ofBigEndian_lt : ∀ s : Bytes, ofBigEndian s < 256 ^ s.length := by
  intro s
  induction s with
  | nil => decide
  | cons b t ih =>
      have hb : (b.val + 1) * 256 ^ t.length ≤ 256 * 256 ^ t.length :=
        Nat.mul_le_mul_right _ b.isLt
      rw [Nat.add_mul, Nat.one_mul] at hb
      rw [ofBigEndian, List.length_cons, Nat.pow_succ, Nat.mul_comm (256 ^ t.length)]
      omega

/-- Eight bytes are the image of a number. -/
theorem bigEndianAux_ofBigEndian : ∀ s : Bytes, bigEndianAux s.length (ofBigEndian s) = s := by
  intro s
  induction s with
  | nil => rfl
  | cons b t ih =>
      have hlt := ofBigEndian_lt t
      have hpos : 0 < 256 ^ t.length := Nat.pow_pos (by omega)
      have hdiv : (b.val * 256 ^ t.length + ofBigEndian t) / 256 ^ t.length = b.val := by
        rw [Nat.add_comm, Nat.add_mul_div_right _ _ hpos, Nat.div_eq_of_lt hlt, Nat.zero_add]
      have hmod : (b.val * 256 ^ t.length + ofBigEndian t) % 256 ^ t.length = ofBigEndian t := by
        rw [Nat.add_comm, Nat.add_mul_mod_self_right, Nat.mod_eq_of_lt hlt]
      rw [List.length_cons, bigEndianAux, ofBigEndian, hdiv, hmod, ih]
      congr 1
      exact Fin.ext (Nat.mod_eq_of_lt b.isLt)

/-- Eight bytes come back from their number. -/
theorem bigEndian_ofBigEndian {s : Bytes} (h : s.length = 8) : bigEndian (ofBigEndian s) = s := by
  have := bigEndianAux_ofBigEndian s
  rwa [h] at this

end Ssdb

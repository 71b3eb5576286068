/-
# Numbers in requests and values

`ssdb-master/src/util/strings.h`: `str_to_int64`, `str_to_uint64` and `str_to_int` call `strtoll`,
`strtoull` and `strtol` and report in `errno`.  It is cleared whenever the whole string has been
read, so that a number out of range, which was cut down to a bound, is no error; and it is set when
something is left over.

* `numeralEnd` is where the `end` of these functions points.
* After `str_to_int64` the variable is 0 exactly for a string that is read as a whole
  (`errno_strToInt64_eq_zero_iff`), whatever it was before.
-/
import DoudizhuBackend.Ssdb.Bytes
import Mathlib.Data.List.TakeWhile

namespace Ssdb

/-! ## What is read of a string -/

/-- What is behind the white space and the sign. -/
def unsigned (s : Bytes) : Bytes :=
  match s.dropWhile isSpace with
  | [] => []
  | b :: t => if b = chr '-' ∨ b = chr '+' then t else b :: t

/-- The number of bytes that `strtoll` reads: none without a digit. -/
def numeralEnd (s : Bytes) : ℕ :=
  if (unsigned s).takeWhile isDigit = [] then 0
  else s.length - (unsigned s).length + ((unsigned s).takeWhile isDigit).length

/-- The string is read as a whole: `*end == '\0' && size_t(end - start) == str.size()`. -/
def IsWhole (s : Bytes) : Prop := numeralEnd s = s.length

instance decidableIsWhole (s : Bytes) : Decidable (IsWhole s) := inferInstanceAs (Decidable (_ = _))

theorem length_unsigned_le (s : Bytes) : (unsigned s).length ≤ s.length := by
  have hdrop : (s.dropWhile isSpace).length ≤ s.length := (List.dropWhile_sublist _).length_le
  unfold unsigned
  split
  · simp
  · rename_i b t hcons
    rw [hcons, List.length_cons] at hdrop
    split
    · omega
    · simpa using hdrop

/-- A string that is read as a whole is empty or ends in its digits. -/
theorem isWhole_iff (s : Bytes) :
    IsWhole s ↔ s = [] ∨ (unsigned s ≠ [] ∧ ∀ b ∈ unsigned s, isDigit b = true) := by
  have hle := length_unsigned_le s
  have htake : ((unsigned s).takeWhile isDigit).length ≤ (unsigned s).length :=
    (List.takeWhile_sublist _).length_le
  rw [IsWhole, numeralEnd]
  split
  · rename_i hnone
    constructor
    · intro hzero
      exact Or.inl (List.eq_nil_of_length_eq_zero hzero.symm)
    · rintro (rfl | ⟨hne, hall⟩)
      · rfl
      · obtain ⟨b, t, hcons⟩ := List.exists_cons_of_ne_nil hne
        have hb : isDigit b = true := hall b (by simp [hcons])
        rw [hcons, List.takeWhile_cons_of_pos hb] at hnone
        cases hnone
  · rename_i hsome
    constructor
    · intro hlength
      right
      -- the digits reach the end of the string
      have hsame : (unsigned s).takeWhile isDigit = unsigned s :=
        (List.takeWhile_sublist _).eq_of_length_le (by omega)
      refine ⟨?_, ?_⟩
      · intro hnil
        rw [hnil] at hsome
        exact hsome rfl
      · intro b hb
        rw [← hsame] at hb
        exact List.all_eq_true.mp List.all_takeWhile b hb
    · rintro (rfl | ⟨hne, hall⟩)
      · exact absurd rfl hsome
      · have hsame : (unsigned s).takeWhile isDigit = unsigned s := by
          rw [List.takeWhile_eq_self_iff]
          exact hall
        rw [hsame]
        omega

/-- The text of an integer is read as a whole. -/
theorem isWhole_str (z : ℤ) : IsWhole (str z) := by
  have hdigits : ∀ n : ℕ, ∀ b ∈ decimal n, isDigit b = true := fun n b hb => isDigit_of_mem_decimal hb
  rw [isWhole_iff]
  right
  rw [str]
  split
  · have hspace : isSpace (chr '-') = false := by decide
    have hunsigned : unsigned (chr '-' :: decimal z.natAbs) = decimal z.natAbs := by
      rw [unsigned, List.dropWhile_cons_of_neg (by simp [hspace])]
      simp
    rw [hunsigned]
    exact ⟨decimal_ne_nil _, hdigits _⟩
  · obtain ⟨b, t, hcons⟩ := List.exists_cons_of_ne_nil (decimal_ne_nil z.natAbs)
    have hb : isDigit b = true := hdigits z.natAbs b (by simp [hcons])
    have hunsigned : unsigned (decimal z.natAbs) = decimal z.natAbs := by
      rw [hcons, unsigned, List.dropWhile_cons_of_neg (by simp [isSpace_eq_false hb])]
      simp [ne_sign hb]
    rw [hunsigned]
    exact ⟨decimal_ne_nil _, hdigits _⟩

/-! ## `errno` -/

/-- `EINVAL`. -/
def einval : ℤ := 22

/-- `ERANGE`. -/
def erange : ℤ := 34

/-- `errno` behind one of the functions, which was `errno` before it; `inRange` tells whether the
number fits the type. -/
def errnoAfter (inRange : Bool) (errno : ℤ) (s : Bytes) : ℤ :=
  if IsWhole s then 0
  else
    let left := if inRange then errno else erange
    if left = 0 then einval else left

/-- `str_to_int64`: the value and `errno`. -/
def strToInt64 (errno : ℤ) (s : Bytes) : ℤ × ℤ :=
  (strtoll s, errnoAfter (decide (IsInt64 (readInt s))) errno s)

/-- `strtoull`: a negative number counts from `2^64` down. -/
def strtoull (s : Bytes) : ℕ :=
  if (readInt s).natAbs < 2 ^ 64 then (readInt s % 2 ^ 64).toNat else 2 ^ 64 - 1

/-- `str_to_int`; a `long` has 64 bits. -/
def strToInt (errno : ℤ) (s : Bytes) : ℤ × ℤ :=
  (atoi s, errnoAfter (decide (IsInt64 (readInt s))) errno s)

theorem errnoAfter_eq_zero_iff (inRange : Bool) (errno : ℤ) (s : Bytes) :
    errnoAfter inRange errno s = 0 ↔ IsWhole s := by
  rw [errnoAfter]
  split
  · rename_i hwhole
    exact ⟨fun _ => hwhole, fun _ => rfl⟩
  · rename_i hwhole
    dsimp only
    generalize (if inRange = true then errno else erange) = left
    split
    · exact ⟨fun h => absurd h (by decide), fun h => absurd h hwhole⟩
    · rename_i hleft
      exact ⟨fun h => absurd h hleft, fun h => absurd h hwhole⟩

/-- After `str_to_int64` there is no error exactly when the whole string has been read. -/
theorem errno_strToInt64_eq_zero_iff (errno : ℤ) (s : Bytes) :
    (strToInt64 errno s).2 = 0 ↔ IsWhole s :=
  errnoAfter_eq_zero_iff _ errno s

/-- The new value of `incr` and `hincr`, none when the old one is not read as a number. -/
def counterValue (old : Option Bytes) (by_ : ℤ) : Option ℤ :=
  match old with
  | none => some by_
  -- `errno` after `str_to_int64`
  | some s => if IsWhole s then some (addInt64 (strtoll s) by_) else none

end Ssdb

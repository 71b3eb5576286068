/-
# What earlier Redis requests leave behind

`errno` is a variable of the thread: all links of a server that one thread serves share it, and
`parse_req` looks at it without clearing it (`ssdb-master/src/net/link_redis.cpp`).  `convert_req` reads
the bounds of `ZRANGEBYSCORE` and `ZRANGE` with `str_to_int` and `str_to_int64`, which set it to `EINVAL`
when a bound is not a number.

* Two values of `errno` that both differ from `EINVAL` make no difference (`parseReq_errno`).
* With `EINVAL` in it a request is refused at its first line (`parseReq_einval`), whatever it is.

So a buffer is parsed alike after two histories exactly when both leave `EINVAL` or neither does, or the
parser gets no further than an error on its first or second line (`parse_independent_iff`).
-/
import DoudizhuBackend.Ssdb.RedisLink

namespace Ssdb

open RedisLink

/-- `errno` of a thread that has run `recv_req` on these buffers, each with the bytes behind it. -/
def threadErrno (toScore : ℤ → Bytes → ℤ × ℤ) (history : List (Bytes × Bytes)) : ℤ :=
  history.foldl (fun errno buffer => (recvReq toScore buffer.1 errno buffer.2).2) 0

namespace RedisLink

/-! ## The number on a line -/

/-- What `strtol` makes of the line at the head. -/
def lineNumber (behind ptr : Bytes) : ℤ := atoi ((ptr ++ behind).drop 1)

/-- What is behind the line at the head. -/
def behindLine (ptr : Bytes) : Bytes := ptr.drop ((ptr.takeWhile (· ≠ newline)).length + 1)

theorem length_takeWhile_eq_iff (ptr : Bytes) :
    (ptr.takeWhile (· ≠ newline)).length = ptr.length ↔ newline ∉ ptr := by
  constructor
  · intro hlength hmem
    have hsame : ptr.takeWhile (· ≠ newline) = ptr := (List.takeWhile_sublist _).eq_of_length hlength
    rw [List.takeWhile_eq_self_iff] at hsame
    exact absurd rfl (of_decide_eq_true (hsame newline hmem))
  · intro hmem
    rw [takeWhile_of_notMem hmem]

/-- A number out of range becomes -1 or 0 as an `int`. -/
theorem atoi_of_not_isInt64 {s : Bytes} (h : ¬IsInt64 (readInt s)) : atoi s ≤ 0 := by
  have hcases : readInt s < -2 ^ 63 ∨ 2 ^ 63 ≤ readInt s := by
    by_contra hnot
    apply h
    constructor
    · omega
    · omega
  rcases hcases with hlow | hhigh
  · have hvalue : strtoll s = -2 ^ 63 := by
      rw [strtoll]
      omega
    rw [atoi, hvalue]
    decide
  · have hvalue : strtoll s = 2 ^ 63 - 1 := by
      rw [strtoll]
      omega
    rw [atoi, hvalue]
    decide

theorem errnoOfStrtol_ne_einval {errno : ℤ} (h : errno ≠ einval) (s : Bytes) :
    errnoOfStrtol errno s ≠ einval := by
  rw [errnoOfStrtol]
  split
  · exact h
  · decide

/-! ## One turn of the parser -/

/-- A turn in which `errno` is not looked at. -/
theorem parseLoop_succ {errno : ℤ} (h : errno ≠ einval) (behind : Bytes) (turns : ℕ) (numArgs : ℤ)
    (recvBytes : Packet) {ptr : Bytes} (hline : newline ∈ ptr) :
    parseLoop behind (turns + 1) errno numArgs recvBytes ptr =
      if lineNumber behind ptr < 0 then (.error recvBytes, errnoOfStrtol errno ((ptr ++ behind).drop 1))
      else if numArgs = 0 then
        if lineNumber behind ptr ≤ 0
        then (.error recvBytes, errnoOfStrtol errno ((ptr ++ behind).drop 1))
        else parseLoop behind turns (errnoOfStrtol errno ((ptr ++ behind).drop 1)) (lineNumber behind ptr)
          recvBytes (behindLine ptr)
      else if (behindLine ptr).length < (lineNumber behind ptr).toNat + 1
      then (.notReady, errnoOfStrtol errno ((ptr ++ behind).drop 1))
      else if numArgs = 1 then
        (.request (recvBytes ++ [(behindLine ptr).take (lineNumber behind ptr).toNat])
          (skipNewline ((behindLine ptr).drop ((lineNumber behind ptr).toNat + 1))),
          errnoOfStrtol errno ((ptr ++ behind).drop 1))
      else parseLoop behind turns (errnoOfStrtol errno ((ptr ++ behind).drop 1)) (numArgs - 1)
        (recvBytes ++ [(behindLine ptr).take (lineNumber behind ptr).toNat])
        (skipNewline ((behindLine ptr).drop ((lineNumber behind ptr).toNat + 1))) := by
  have hlength := (length_takeWhile_eq_iff ptr).not.mpr (not_not.mpr hline)
  rw [parseLoop]
  simp only [if_neg hlength, if_neg (errnoOfStrtol_ne_einval h _)]
  rfl

/-- **Two values of `errno` other than `EINVAL`** make no difference. -/
theorem parseLoop_errno (behind : Bytes) (turns : ℕ) : ∀ {errno errno' : ℤ} (numArgs : ℤ)
    (recvBytes : Packet) (ptr : Bytes), errno ≠ einval → errno' ≠ einval →
      (parseLoop behind turns errno numArgs recvBytes ptr).1 =
        (parseLoop behind turns errno' numArgs recvBytes ptr).1 := by
  induction turns with
  | zero => intro errno errno' numArgs recvBytes ptr _ _; rfl
  | succ turns ih =>
      intro errno errno' numArgs recvBytes ptr h h'
      by_cases hline : newline ∈ ptr
      · have hnext := errnoOfStrtol_ne_einval h ((ptr ++ behind).drop 1)
        have hnext' := errnoOfStrtol_ne_einval h' ((ptr ++ behind).drop 1)
        rw [parseLoop_succ h behind turns numArgs recvBytes hline,
          parseLoop_succ h' behind turns numArgs recvBytes hline]
        split_ifs
        · rfl
        · rfl
        · exact ih _ _ _ hnext hnext'
        · rfl
        · rfl
        · exact ih _ _ _ hnext hnext'
      · have hlength := (length_takeWhile_eq_iff ptr).mpr hline
        rw [parseLoop, parseLoop, if_pos hlength, if_pos hlength]

/-- Strings that have been read stay in the arguments. -/
theorem parseLoop_keeps (behind : Bytes) (turns : ℕ) : ∀ {errno : ℤ} (numArgs : ℤ) {recvBytes : Packet}
    (ptr : Bytes), errno ≠ einval → recvBytes ≠ [] →
      (parseLoop behind turns errno numArgs recvBytes ptr).1 ≠ .error [] := by
  induction turns with
  | zero => intro errno numArgs recvBytes ptr _ _ h; cases h
  | succ turns ih =>
      intro errno numArgs recvBytes ptr h hne
      by_cases hline : newline ∈ ptr
      · have hnext := errnoOfStrtol_ne_einval h ((ptr ++ behind).drop 1)
        have herror : (Outcome.error recvBytes) ≠ .error [] := by
          intro heq
          exact hne (Outcome.error.inj heq)
        rw [parseLoop_succ h behind turns numArgs recvBytes hline]
        split_ifs
        · exact herror
        · exact herror
        · exact ih _ _ hnext hne
        · intro heq; cases heq
        · intro heq; cases heq
        · exact ih _ _ hnext (by simp)
      · have hlength := (length_takeWhile_eq_iff ptr).mpr hline
        rw [parseLoop, if_pos hlength]
        intro heq
        cases heq

/-! ## A buffer after two histories -/

/-- The parser does not get as far as to tell whether `errno` is `EINVAL`, or its answer is an error all
the same: there is no `*`, the first line is not complete or holds no positive number, or the second
line holds a negative one. -/
def Indifferent (behind input : Bytes) : Prop :=
  (input.dropWhile isLineEnd ++ behind).head? ≠ some (chr '*') ∨
    newline ∉ input.dropWhile isLineEnd ∨ lineNumber behind (input.dropWhile isLineEnd) ≤ 0 ∨
    (newline ∈ behindLine (input.dropWhile isLineEnd) ∧
      lineNumber behind (behindLine (input.dropWhile isLineEnd)) < 0)

instance decidableIndifferent (behind input : Bytes) : Decidable (Indifferent behind input) :=
  inferInstanceAs (Decidable (_ ∨ _))

/-- **`EINVAL` refuses** every request whose first line has arrived. -/
theorem parseReq_einval {behind input : Bytes}
    (hstar : (input.dropWhile isLineEnd ++ behind).head? = some (chr '*'))
    (hline : newline ∈ input.dropWhile isLineEnd) : (parseReq behind einval input).1 = .error [] := by
  rw [parseReq]
  simp only [hstar, ne_eq, not_true_eq_false, if_false]
  generalize input.dropWhile isLineEnd = ptr at hline
  have hlength := (length_takeWhile_eq_iff ptr).not.mpr (not_not.mpr hline)
  rw [parseLoop]
  simp only [if_neg hlength, if_true]
  generalize (ptr ++ behind).drop 1 = number
  by_cases hint : IsInt64 (readInt number)
  · rw [if_pos]
    rw [errnoOfStrtol, if_pos hint]
  · -- `strtol` replaces `EINVAL`, but the number is then not positive
    have hle := atoi_of_not_isInt64 hint
    rw [if_neg, if_pos hle]
    · split
      · rfl
      · rfl
    · rw [errnoOfStrtol, if_neg hint]
      decide

/-- Without `EINVAL` the parser returns this error for the first two lines only. -/
theorem parseReq_eq_error_iff {behind input : Bytes} {errno : ℤ} (herrno : errno ≠ einval)
    (hstar : (input.dropWhile isLineEnd ++ behind).head? = some (chr '*'))
    (hline : newline ∈ input.dropWhile isLineEnd) :
    (parseReq behind errno input).1 = .error [] ↔
      lineNumber behind (input.dropWhile isLineEnd) ≤ 0 ∨
        (newline ∈ behindLine (input.dropWhile isLineEnd) ∧
          lineNumber behind (behindLine (input.dropWhile isLineEnd)) < 0) := by
  rw [parseReq]
  simp only [hstar, ne_eq, not_true_eq_false, if_false]
  generalize input.dropWhile isLineEnd = ptr at hline
  obtain ⟨turns, hturns⟩ : ∃ k, ptr.length = k + 1 :=
    ⟨ptr.length - 1, by have := List.length_pos_of_mem hline; omega⟩
  have hnext := errnoOfStrtol_ne_einval herrno ((ptr ++ behind).drop 1)
  rw [hturns, parseLoop_succ herrno behind (turns + 1) 0 [] hline, if_pos rfl]
  by_cases hpos : lineNumber behind ptr ≤ 0
  · -- the number of strings is refused, negative or not
    constructor
    · intro _
      exact Or.inl hpos
    · intro _
      split_ifs
      · rfl
      · rfl
  · rw [if_neg (by omega), if_neg hpos]
    by_cases hline₂ : newline ∈ behindLine ptr
    · rw [parseLoop_succ hnext behind turns _ [] hline₂]
      by_cases hneg : lineNumber behind (behindLine ptr) < 0
      · rw [if_pos hneg]
        exact ⟨fun _ => Or.inr ⟨hline₂, hneg⟩, fun _ => rfl⟩
      · rw [if_neg hneg, if_neg (by omega)]
        have hright : ¬(lineNumber behind ptr ≤ 0 ∨
            (newline ∈ behindLine ptr ∧ lineNumber behind (behindLine ptr) < 0)) := by
          rintro (h | h)
          · exact hpos h
          · exact hneg h.2
        -- a string has been read, or the answer is no error
        refine iff_of_false ?_ hright
        split_ifs
        · intro h; cases h
        · intro h; cases h
        · exact parseLoop_keeps behind turns _ _ (errnoOfStrtol_ne_einval hnext _) (by simp)
    · have hlength := (length_takeWhile_eq_iff (behindLine ptr)).mpr hline₂
      rw [parseLoop, if_pos hlength]
      constructor
      · intro h
        cases h
      · rintro (h | h)
        · exact absurd h hpos
        · exact absurd h.1 hline₂

/-- The parser on an `EINVAL` and on another value. -/
theorem parseReq_einval_eq_iff (behind input : Bytes) {errno : ℤ} (herrno : errno ≠ einval) :
    (parseReq behind einval input).1 = (parseReq behind errno input).1 ↔ Indifferent behind input := by
  by_cases hstar : (input.dropWhile isLineEnd ++ behind).head? = some (chr '*')
  · by_cases hline : newline ∈ input.dropWhile isLineEnd
    · rw [parseReq_einval hstar hline, eq_comm, parseReq_eq_error_iff herrno hstar hline, Indifferent]
      constructor
      · intro h
        exact Or.inr (Or.inr h)
      · rintro (h | h | h)
        · exact absurd hstar h
        · exact absurd hline h
        · exact h
    · -- the first line is not complete: the parser waits
      refine iff_of_true ?_ (Or.inr (Or.inl hline))
      have hlength := (length_takeWhile_eq_iff _).mpr hline
      rw [parseReq, parseReq]
      simp only [hstar, ne_eq, not_true_eq_false, if_false]
      rw [parseLoop, parseLoop, if_pos hlength, if_pos hlength]
  · refine iff_of_true ?_ (Or.inl hstar)
    rw [parseReq, parseReq]
    simp only [ne_eq, hstar, not_false_eq_true, if_true]

theorem parseReq_errno (behind input : Bytes) {errno errno' : ℤ} (h : errno ≠ einval)
    (h' : errno' ≠ einval) : (parseReq behind errno input).1 = (parseReq behind errno' input).1 := by
  rw [parseReq, parseReq]
  split
  · rfl
  · exact parseLoop_errno behind _ 0 [] _ h h'

end RedisLink

/-- **Parsing and earlier requests.**  A buffer gives the same answer and the same arguments after two
histories exactly when both have left `EINVAL` in `errno`, or neither has, or the buffer is one for which
this does not matter. -/
theorem parse_independent_iff (toScore : ℤ → Bytes → ℤ × ℤ) (history history' : List (Bytes × Bytes))
    (behind input : Bytes) :
    (parseReq behind (threadErrno toScore history) input).1 =
        (parseReq behind (threadErrno toScore history') input).1 ↔
      (threadErrno toScore history = einval ↔ threadErrno toScore history' = einval) ∨
        Indifferent behind input := by
  generalize threadErrno toScore history = errno
  generalize threadErrno toScore history' = errno'
  by_cases h : errno = einval
  · by_cases h' : errno' = einval
    · subst h
      subst h'
      exact iff_of_true rfl (Or.inl Iff.rfl)
    · subst h
      rw [parseReq_einval_eq_iff behind input h']
      simp [h']
  · by_cases h' : errno' = einval
    · subst h'
      rw [eq_comm, parseReq_einval_eq_iff behind input h]
      simp [h]
    · exact iff_of_true (parseReq_errno behind input h h') (Or.inl (by simp [h, h']))

/-- `ZRANGEBYSCORE z (abc 5`, as a client sends it. -/
def badBound : Bytes :=
  ascii "*4\r\n$13\r\nzrangebyscore\r\n$1\r\nz\r\n$4\r\n(abc\r\n$1\r\n5\r\n"

/-- A `PING` is refused after a request with a malformed bound, and read without it. -/
theorem ping_refused_after_badBound :
    (parseReq [] (threadErrno (fun errno s => (strtoll s, errno)) [([], badBound)])
        (ascii "*1\r\n$4\r\nping\r\n")).1 = .error [] ∧
      (parseReq [] (threadErrno (fun errno s => (strtoll s, errno)) [])
        (ascii "*1\r\n$4\r\nping\r\n")).1 = .request [ascii "ping"] [] := by
  decide +kernel

end Ssdb

/-
# Numbers in replies

`ssdb-master/src/net/resp.cpp`: `Response::add` prints a number with `sprintf` into a local array of 20
bytes and appends the text to the reply.  The array is embedded with the check that C does not make: a
write behind its end is `none`.

The text and its terminator fit exactly if the number is greater than `-10^18`, or below `10^19` for an
unsigned one (`response_buffer`).  The numbers come from `incr`, `hincr`, `zincr` and `zsum`, which reach
every `int64_t`.
-/
import DoudizhuBackend.Ssdb.Counters
import DoudizhuBackend.Ssdb.ZsetRanges

namespace Ssdb

/-! ## The array -/

/-- `char buf[20]`. -/
abbrev Buf := {bytes : Bytes // bytes.length = 20}

/-- `buf[i] = b`; `none` behind the end. -/
def Buf.store (buf : Buf) (i : ℕ) (b : Byte) : Option Buf :=
  if i < 20 then some ⟨buf.val.set i b, by rw [List.length_set, buf.2]⟩ else none

/-- The bytes of a text, written one after another from `i` on. -/
def Buf.storeAll : Buf → ℕ → Bytes → Option Buf
  | buf, _, [] => some buf
  | buf, i, b :: s => (buf.store i b).bind fun buf => buf.storeAll (i + 1) s

/-- `sprintf`: the text and its terminator. -/
def Buf.sprintf (buf : Buf) (text : Bytes) : Option Buf := buf.storeAll 0 (text ++ [0])

/-- The array as a C string. -/
def Buf.text (buf : Buf) : Bytes := buf.val.takeWhile (· ≠ 0)

namespace Response

/-- `Response::add(int64_t)`; `buf` is what the array holds before. -/
def addInt64 (buf : Buf) (resp : List Bytes) (s : ℤ) : Option (List Bytes) :=
  (buf.sprintf (str s)).map fun buf => resp ++ [buf.text]

/-- `Response::add(uint64_t)`. -/
def addUint64 (buf : Buf) (resp : List Bytes) (s : ℕ) : Option (List Bytes) :=
  (buf.sprintf (decimal s)).map fun buf => resp ++ [buf.text]

/-- `Response::reply_int`. -/
def replyInt (buf : Buf) (status val : ℤ) : Option (List Bytes) :=
  if status = -1 then some [ascii "error"] else addInt64 buf [ascii "ok"] val

end Response

/-! ## Commands that reply with a number -/

/-- `_incr` and `_hincr`, `_zincr`, and `proc_zsum`. -/
inductive NumberCommand where
  | count (c : CounterCommand)
  | zincr (name key : Bytes) (dir : Direction) (text : Option Bytes)
  | zsum (name scoreStart scoreEnd : Bytes)

namespace NumberCommand

/-- The status and the number that go to `reply_int`; `none` where the reply is an error text. -/
def answer (db : Db) : NumberCommand → Option (ℤ × ℤ)
  | count c =>
      let (ret, newVal, _) := c.cell.incr db (mulInt64 c.dir.sign (amount c.text)) .sync
      if ret = 0 then none else some (ret, newVal)
  | zincr name key dir text =>
      let (ret, newVal, _) := Ssdb.zincr db name key (mulInt64 dir.sign (amount text)) .sync
      some (ret, newVal)
  | zsum name scoreStart scoreEnd =>
      some (0, (zscan db name [] scoreStart scoreEnd noLimit).foldl
        (fun sum item => addInt64 sum (strtoll item.2)) 0)

/-- The reply, `none` where the array overflows. -/
def reply (buf : Buf) (db : Db) (c : NumberCommand) : Option (List Bytes) :=
  match c.answer db with
  | none => some [ascii "error", ascii "value is not an integer or out of range"]
  | some (status, val) => Response.replyInt buf status val

end NumberCommand

/-! ## Which texts fit -/

/-- A text that fits replaces a part of the array. -/
theorem Buf.storeAll_fits (s : Bytes) : ∀ (buf : Buf) (i : ℕ), i + s.length ≤ 20 →
    ∃ buf', buf.storeAll i s = some buf' ∧ buf'.val = buf.val.take i ++ s ++ buf.val.drop (i + s.length) := by
  induction s with
  | nil =>
      intro buf i _
      refine ⟨buf, rfl, ?_⟩
      rw [List.append_nil, List.length_nil, Nat.add_zero, List.take_append_drop]
  | cons b s ih =>
      intro buf i hle
      rw [List.length_cons] at hle
      have hi : i < buf.val.length := by
        rw [buf.2]
        omega
      obtain ⟨buf', hstore, hval⟩ := ih ⟨buf.val.set i b, by rw [List.length_set, buf.2]⟩ (i + 1) (by omega)
      refine ⟨buf', ?_, ?_⟩
      · rw [storeAll, store, if_pos (by omega), Option.bind_some, hstore]
      · rw [hval, List.take_add_one, List.take_set_of_le le_rfl, List.getElem?_set_self hi,
          List.drop_set_of_lt (by omega), List.length_cons]
        have hindex : i + 1 + s.length = i + (s.length + 1) := by omega
        rw [hindex]
        simp

/-- **Where a text does not fit**, a byte is written behind the end. -/
theorem Buf.storeAll_overflow (s : Bytes) : ∀ (buf : Buf) (i : ℕ), i ≤ 20 → 20 < i + s.length →
    buf.storeAll i s = none := by
  induction s with
  | nil =>
      intro buf i hi hlt
      rw [List.length_nil] at hlt
      omega
  | cons b s ih =>
      intro buf i hi hlt
      rw [List.length_cons] at hlt
      rw [storeAll, store]
      split
      · rw [Option.bind_some]
        exact ih _ (i + 1) (by omega) (by omega)
      · rfl

/-- `sprintf` of at most 19 characters. -/
theorem Buf.sprintf_fits (buf : Buf) {text : Bytes} (hzero : (0 : Byte) ∉ text) (h : text.length ≤ 19) :
    ∃ buf', buf.sprintf text = some buf' ∧ buf'.text = text := by
  obtain ⟨buf', hstore, hval⟩ := storeAll_fits (text ++ [0]) buf 0 (by
    rw [List.length_append, List.length_singleton]
    omega)
  refine ⟨buf', hstore, ?_⟩
  rw [Buf.text, hval, List.take_zero, List.nil_append, List.append_assoc, List.takeWhile_append_of_pos]
  · simp
  · intro b hb
    rw [decide_eq_true_eq]
    rintro rfl
    exact hzero hb

theorem Buf.sprintf_overflow (buf : Buf) {text : Bytes} (h : 19 < text.length) : buf.sprintf text = none := by
  apply storeAll_overflow
  · exact Nat.zero_le _
  · rw [List.length_append, List.length_singleton]
    omega

/-! ## The length of a number -/

/-- A number from `10^k` on has more than `k` digits. -/
theorem lt_length_decimalAux : ∀ (k fuel n : ℕ), n < fuel → 10 ^ k ≤ n → k < (decimalAux fuel n).length := by
  intro k
  induction k with
  | zero =>
      intro fuel n hfuel _
      obtain ⟨fuel, rfl⟩ : ∃ m, fuel = m + 1 := ⟨fuel - 1, by omega⟩
      exact List.length_pos_iff.mpr (decimalAux_ne_nil fuel n)
  | succ k ih =>
      intro fuel n hfuel hle
      obtain ⟨fuel, rfl⟩ : ∃ m, fuel = m + 1 := ⟨fuel - 1, by omega⟩
      rw [Nat.pow_succ] at hle
      have hpos : 0 < 10 ^ k := Nat.pow_pos (by omega)
      rw [decimalAux, if_neg (by omega), List.length_append, List.length_singleton]
      have := ih fuel (n / 10) (by omega) (by omega)
      omega

theorem length_decimal_le_iff (k n : ℕ) : (decimal n).length ≤ k + 1 ↔ n < 10 ^ (k + 1) := by
  constructor
  · intro hle
    by_contra hge
    have := lt_length_decimalAux (k + 1) (n + 1) n (by omega) (by omega)
    rw [decimal] at hle
    omega
  · exact length_decimal_le

theorem zero_notMem_decimal (n : ℕ) : (0 : Byte) ∉ decimal n := by
  intro h
  have := isDigit_of_mem_decimal h
  revert this
  decide

theorem zero_notMem_str (z : ℤ) : (0 : Byte) ∉ str z := by
  rw [str]
  split
  · intro h
    rcases List.mem_cons.mp h with h | h
    · exact absurd h (by decide)
    · exact zero_notMem_decimal _ h
  · exact zero_notMem_decimal _

/-- An `int64_t` has at most 19 characters unless it is `-10^18` or less. -/
theorem length_str_le_iff {s : ℤ} (hs : IsInt64 s) : (str s).length ≤ 19 ↔ -10 ^ 18 < s := by
  obtain ⟨hlow, hhigh⟩ := hs
  rw [str]
  split
  · have hiff := length_decimal_le_iff 17 s.natAbs
    rw [List.length_cons]
    constructor
    · intro hle
      have := hiff.mp (by omega)
      omega
    · intro hlt
      have := hiff.mpr (by omega)
      omega
  · have hiff := length_decimal_le_iff 18 s.natAbs
    constructor
    · intro _
      omega
    · intro _
      exact hiff.mpr (by omega)

/-! ## Replies -/

namespace Response

theorem addInt64_eq (buf : Buf) (resp : List Bytes) {s : ℤ} (hs : IsInt64 s) :
    addInt64 buf resp s = if -10 ^ 18 < s then some (resp ++ [str s]) else none := by
  rw [addInt64]
  split
  · rename_i hlt
    obtain ⟨buf', hsprintf, htext⟩ := buf.sprintf_fits (zero_notMem_str s) ((length_str_le_iff hs).mpr hlt)
    rw [hsprintf, Option.map_some, htext]
  · rename_i hge
    have hlong := (length_str_le_iff hs).not.mpr hge
    rw [buf.sprintf_overflow (by omega), Option.map_none]

theorem addUint64_eq (buf : Buf) (resp : List Bytes) (s : ℕ) :
    addUint64 buf resp s = if s < 10 ^ 19 then some (resp ++ [decimal s]) else none := by
  have hiff := length_decimal_le_iff 18 s
  rw [addUint64]
  split
  · rename_i hlt
    obtain ⟨buf', hsprintf, htext⟩ := buf.sprintf_fits (zero_notMem_decimal s) (hiff.mpr hlt)
    rw [hsprintf, Option.map_some, htext]
  · rename_i hge
    have hlong := hiff.not.mpr hge
    rw [buf.sprintf_overflow (by omega), Option.map_none]

/-- Where the array holds the number, the reply is the one without an array. -/
theorem replyInt_eq (buf : Buf) {val : ℤ} (hval : IsInt64 val) (status : ℤ) :
    replyInt buf status val =
      if status = -1 ∨ -10 ^ 18 < val then some (Ssdb.replyInt status val) else none := by
  rw [replyInt, Ssdb.replyInt, addInt64_eq buf _ hval]
  by_cases hstatus : status = -1
  · rw [if_pos hstatus, if_pos hstatus, if_pos (Or.inl hstatus)]
  · simp only [hstatus, if_false, false_or]
    rfl

end Response

theorem isInt64_bmod (z : ℤ) : IsInt64 (z.bmod (2 ^ 64)) := by
  have hlow := Int.le_bmod (x := z) (m := 2 ^ 64) (by omega)
  have hhigh := Int.bmod_lt (x := z) (m := 2 ^ 64) (by omega)
  constructor
  · omega
  · omega

theorem isInt64_counterValue {old : Option Bytes} {by_ n : ℤ} (hby : IsInt64 by_)
    (h : counterValue old by_ = some n) : IsInt64 n := by
  cases old with
  | none =>
      rw [← Option.some.inj h]
      exact hby
  | some s =>
      simp only [counterValue] at h
      split at h
      · rw [← Option.some.inj h]
        exact isInt64_bmod _
      · cases h

namespace NumberCommand

/-- What goes to `reply_int` is an `int64_t`. -/
theorem isInt64_of_answer {db : Db} {c : NumberCommand} {status val : ℤ}
    (h : c.answer db = some (status, val)) : IsInt64 val := by
  cases c with
  | count c =>
      have hby : IsInt64 (mulInt64 c.dir.sign (amount c.text)) := isInt64_bmod _
      cases hvalue : counterValue (c.cell.read db) (mulInt64 c.dir.sign (amount c.text)) with
      | none =>
          simp only [answer, Cell.incr_refused hvalue, if_true] at h
          cases h
      | some n =>
          obtain ⟨hret, hnew, -⟩ := Cell.incr_stored hvalue .sync
          simp only [answer, hret, hnew] at h
          rw [if_neg (by decide)] at h
          obtain ⟨-, rfl⟩ := Prod.mk.inj (Option.some.inj h)
          exact isInt64_counterValue hby hvalue
  | zincr name key dir text =>
      have hscore : IsInt64 (zincrScore db name key (mulInt64 dir.sign (amount text))) := by
        rw [zincrScore]
        split
        · exact isInt64_bmod _
        · exact isInt64_bmod _
      simp only [answer, Ssdb.zincr] at h
      split at h
      · obtain ⟨-, rfl⟩ := Prod.mk.inj (Option.some.inj h)
        exact hscore
      · obtain ⟨-, rfl⟩ := Prod.mk.inj (Option.some.inj h)
        exact hscore
  | zsum name scoreStart scoreEnd =>
      obtain ⟨-, rfl⟩ := Prod.mk.inj (Option.some.inj h)
      -- a sum is 0 or the result of an addition
      apply List.foldlRecOn (motive := IsInt64)
      · decide
      · exact fun sum _ item _ => isInt64_bmod _

end NumberCommand

/-- **The array of a reply.**  A signed number and its terminator lie within the 20 bytes exactly if it is
greater than `-10^18`, an unsigned one exactly if it is below `10^19`; and a command that replies with a
number stays within the array exactly if it reports a failure or the number is greater than `-10^18`. -/
theorem response_buffer (buf : Buf) (resp : List Bytes) :
    (∀ s, IsInt64 s → ((Response.addInt64 buf resp s).isSome ↔ -10 ^ 18 < s)) ∧
    (∀ s, s < 2 ^ 64 → ((Response.addUint64 buf resp s).isSome ↔ s < 10 ^ 19)) ∧
    ∀ (db : Db) (c : NumberCommand), (c.reply buf db).isSome ↔
      ∀ status val, c.answer db = some (status, val) → status ≠ -1 → -10 ^ 18 < val := by
  refine ⟨?_, ?_, ?_⟩
  · intro s hs
    rw [Response.addInt64_eq buf resp hs]
    split
    · rename_i hfits
      exact iff_of_true rfl hfits
    · rename_i hfits
      exact iff_of_false (by simp) hfits
  · intro s _
    rw [Response.addUint64_eq]
    split
    · rename_i hfits
      exact iff_of_true rfl hfits
    · rename_i hfits
      exact iff_of_false (by simp) hfits
  · intro db c
    rw [NumberCommand.reply]
    cases hanswer : c.answer db with
    | none => simp
    | some p =>
        obtain ⟨status, val⟩ := p
        simp only [Response.replyInt_eq buf (NumberCommand.isInt64_of_answer hanswer), Option.some.injEq,
          Prod.mk.injEq]
        by_cases hfits : status = -1 ∨ -10 ^ 18 < val
        · rw [if_pos hfits]
          refine iff_of_true rfl ?_
          rintro _ _ ⟨rfl, rfl⟩ hstatus
          exact hfits.resolve_left hstatus
        · rw [if_neg hfits]
          rw [not_or] at hfits
          refine iff_of_false (by simp) ?_
          intro hall
          exact hfits.2 (hall status val ⟨rfl, rfl⟩ hfits.1)

/-- The array before the call. -/
def zeroBuf : Buf := ⟨List.replicate 20 0, by decide⟩

theorem response_buffer_sample :
    IsInt64 (-42) ∧ ((Response.addInt64 zeroBuf [] (-42)).isSome ↔ (-10 ^ 18 : ℤ) < -42) := by
  have hs : IsInt64 (-42) := by decide
  exact ⟨hs, (response_buffer zeroBuf []).1 _ hs⟩

/-- **A reply that overflows the array**: `incr k -1000000000000000000` in the empty store. -/
theorem incr_reply_overflows :
    (NumberCommand.count ⟨.value (ascii "k"), .up, some (ascii "-1000000000000000000")⟩).answer
        OrderedMap.empty = some (1, -10 ^ 18) ∧
      (NumberCommand.count ⟨.value (ascii "k"), .up, some (ascii "-1000000000000000000")⟩).reply zeroBuf
        OrderedMap.empty = none ∧
      Response.addUint64 zeroBuf [] (2 ^ 64 - 1) = none := by
  decide +kernel

end Ssdb

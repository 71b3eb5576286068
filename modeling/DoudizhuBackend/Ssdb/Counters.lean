/-
# Counters

`SSDBImpl::incr` of `ssdb-master/src/ssdb/t_kv.cpp`, `SSDBImpl::hincr` of `t_hash.cpp`, and the
commands `incr`, `decr`, `hincr` and `hdecr` of `proc_kv.cpp` and `proc_hash.cpp`.  A counter is the
decimal text of an `int64_t`, under a key or in a field of a hash.

What the functions declare (`declared`) is exact arithmetic, and a refusal of everything that is not
an integer or out of range.  They do it (`counter_arithmetic`) unless

* the value is read as a whole and is not the text of an `int64_t` (an empty text, white space, a
  plus sign, leading zeros, a number out of range),
* the sum is out of range: the addition wraps around, and so does the negation of `decr`, or
* the amount in the request is not a numeral: it is read as far as it goes.
-/
import DoudizhuBackend.GuardedRun
import DoudizhuBackend.Ssdb.Hash
import DoudizhuBackend.Ssdb.Kv

namespace Ssdb

/-! ## Operations -/

/-- `SSDBImpl::incr`. -/
def Kv.incr (db : Db) (key : Bytes) (by_ : ℤ) (logType : BinlogType) : ℤ × ℤ × List Write :=
  match counterValue (Kv.get db key) by_ with
  | none => (0, 0, [])
  | some newVal =>
      (1, newVal, [.put (encodeKvKey key) (.bytes (str newVal)),
        .addLog logType .kset (encodeKvKey key)])

/-- Where a counter is kept: a value, or a field of a hash. -/
inductive Cell where
  | value (key : Bytes)
  | field (name key : Bytes) (isField : IsField name key)
  deriving DecidableEq

namespace Cell

/-- The stored text of a cell. -/
def read (db : Db) : Cell → Option Bytes
  | value key => Kv.get db key
  | field name key _ => hget db name key

/-- `incr` and `hincr`: the result, the new value, and the calls of the transaction. -/
def incr (db : Db) (cell : Cell) (by_ : ℤ) (logType : BinlogType) : ℤ × ℤ × List Write :=
  match cell with
  | value key => Kv.incr db key by_ logType
  | field name key _ => hincr db name key by_ logType

end Cell

/-! ## Commands -/

/-- The `dir` of `_incr` and `_hincr`. -/
inductive Direction where
  | up | down
  deriving DecidableEq

/-- The sign of a step. -/
def Direction.sign : Direction → ℤ
  | up => 1
  | down => -1

/-- `dir * by` as an `int64_t`. -/
def mulInt64 (x y : ℤ) : ℤ := (x * y).bmod (2 ^ 64)

/-- The amount of a request: 1, or what `Int64()` reads of the argument. -/
def amount : Option Bytes → ℤ
  | none => 1
  | some text => strtoll text

/-- A request `incr`, `decr`, `hincr` or `hdecr`. -/
structure CounterCommand where
  cell : Cell
  dir : Direction
  text : Option Bytes

namespace CounterCommand

/-- `_incr` and `_hincr`: the database and the reply. -/
def run (db : Db) (c : CounterCommand) : Db × List Bytes :=
  let (ret, newVal, ws) := c.cell.incr db (mulInt64 c.dir.sign (amount c.text)) .sync
  (db.apply ws, if ret = 0 then [ascii "error", ascii "value is not an integer or out of range"]
    else replyInt ret newVal)

/-- The store after a command. -/
def exec (db : Db) (c : CounterCommand) : Db := (c.run db).1

end CounterCommand

/-! ## What is declared -/

/-- The text is the decimal text of an `int64_t`. -/
def IsNumeral (text : Bytes) : Prop := text = str (strtoll text)

instance decidableIsNumeral (text : Bytes) : Decidable (IsNumeral text) :=
  inferInstanceAs (Decidable (_ = _))

/-- **The declared new value**, none for a refusal: the exact sum, if the old value is absent or the
text of an `int64_t` and the sum is one. -/
def declared (old : Option Bytes) (by_ : ℤ) : Option ℤ :=
  match old with
  | none => if IsInt64 by_ then some by_ else none
  | some s => if IsNumeral s ∧ IsInt64 (strtoll s + by_) then some (strtoll s + by_) else none

/-- The amount that a request asks for, none for a refusal. -/
def declaredAmount (dir : Direction) (text : Option Bytes) : Option ℤ :=
  match text with
  | none => some (dir.sign * 1)
  | some t => if IsNumeral t then some (dir.sign * strtoll t) else none

/-- What is stored in the cells. -/
def cells (db : Db) (cell : Cell) : Option Bytes := cell.read db

/-- The operation does what is declared. -/
def CountsAsDeclared (db : Db) (cell : Cell) (by_ : ℤ) (logType : BinlogType) : Prop :=
  match declared (cell.read db) by_ with
  | some n => (cell.incr db by_ logType).1 = 1 ∧ (cell.incr db by_ logType).2.1 = n ∧
      cells (db.apply (cell.incr db by_ logType).2.2) = Function.update (cells db) cell (some (str n))
  | none => (cell.incr db by_ logType).1 = 0 ∧ db.apply (cell.incr db by_ logType).2.2 = db

namespace CounterCommand

/-- The new value that is declared for a request. -/
def declared (db : Db) (c : CounterCommand) : Option ℤ :=
  (declaredAmount c.dir c.text).bind fun a => Ssdb.declared (c.cell.read db) a

/-- The request is answered as it is declared. -/
def AnswersAsDeclared (db : Db) (c : CounterCommand) : Prop :=
  match c.declared db with
  | some n => (c.run db).2 = [ascii "ok", str n] ∧
      cells (c.exec db) = Function.update (cells db) c.cell (some (str n))
  | none => (c.run db).2.head? = some (ascii "error") ∧ c.exec db = db

end CounterCommand

/-! ## When it is done -/

/-- The condition on an old value and an amount: nothing is stored, or what is stored is not read as
a number, or it is the text of an `int64_t` and the sum is in range. -/
def Countable (old : Option Bytes) (by_ : ℤ) : Prop :=
  match old with
  | none => True
  | some s => ¬ IsWhole s ∨ (IsNumeral s ∧ IsInt64 (strtoll s + by_))

/-- The condition on a request: what is stored is not read as a number, or the amount is a numeral and
the sum is in range. -/
def CounterCommand.Sound (db : Db) (c : CounterCommand) : Prop :=
  match c.cell.read db with
  | none => ∃ a, declaredAmount c.dir c.text = some a ∧ IsInt64 a
  | some s => ¬ IsWhole s ∨
      (IsNumeral s ∧ ∃ a, declaredAmount c.dir c.text = some a ∧ IsInt64 (strtoll s + a))

theorem addInt64_of_isInt64 {x y : ℤ} (h : IsInt64 (x + y)) : addInt64 x y = x + y := by
  obtain ⟨hlow, hhigh⟩ := h
  exact Int.bmod_eq_of_le_mul_two (by omega) (by omega)

theorem addInt64_mulInt64 (x a b : ℤ) : addInt64 x (mulInt64 a b) = addInt64 x (a * b) := by
  rw [addInt64, addInt64, mulInt64, Int.add_bmod_bmod]

theorem mulInt64_of_isInt64 {x y : ℤ} (h : IsInt64 (x * y)) : mulInt64 x y = x * y := by
  obtain ⟨hlow, hhigh⟩ := h
  exact Int.bmod_eq_of_le_mul_two (by omega) (by omega)

theorem isWhole_of_isNumeral {s : Bytes} (h : IsNumeral s) : IsWhole s := by
  rw [h]
  exact isWhole_str _

/-- **The new value is the declared one** exactly under the condition. -/
theorem counterValue_eq_declared_iff (old : Option Bytes) {by_ : ℤ} (hby : IsInt64 by_) :
    counterValue old by_ = declared old by_ ↔ Countable old by_ := by
  cases old with
  | none => simp [counterValue, declared, Countable, hby]
  | some s =>
      simp only [counterValue, declared, Countable]
      by_cases hwhole : IsWhole s
      · by_cases hgood : IsNumeral s ∧ IsInt64 (strtoll s + by_)
        · rw [if_pos hwhole, if_pos hgood, addInt64_of_isInt64 hgood.2]
          exact ⟨fun _ => Or.inr hgood, fun _ => rfl⟩
        · rw [if_pos hwhole, if_neg hgood]
          simp [hwhole, hgood]
      · have hbad : ¬ (IsNumeral s ∧ IsInt64 (strtoll s + by_)) :=
          fun h => hwhole (isWhole_of_isNumeral h.1)
        rw [if_neg hwhole, if_neg hbad]
        simp [hwhole]

/-- The amount that is declared is the one that is read, before it is cut down to 64 bits. -/
theorem eq_of_declaredAmount {dir : Direction} {text : Option Bytes} {a : ℤ}
    (h : declaredAmount dir text = some a) : a = dir.sign * amount text := by
  cases text with
  | none => exact (Option.some.inj h).symm
  | some t =>
      simp only [declaredAmount] at h
      split_ifs at h
      exact (Option.some.inj h).symm

/-- The new value of a request is the declared one exactly under the condition. -/
theorem CounterCommand.counterValue_eq_declared_iff (db : Db) (c : CounterCommand) :
    counterValue (c.cell.read db) (mulInt64 c.dir.sign (amount c.text)) = c.declared db ↔
      c.Sound db := by
  rw [CounterCommand.declared, CounterCommand.Sound]
  cases c.cell.read db with
  | none =>
      simp only [counterValue]
      cases hdeclared : declaredAmount c.dir c.text with
      | none => simp
      | some a =>
          obtain rfl := eq_of_declaredAmount hdeclared
          simp only [Option.bind_some, Ssdb.declared, Option.some.injEq, exists_eq_left']
          split_ifs with hint
          · rw [mulInt64_of_isInt64 hint]
            exact ⟨fun _ => hint, fun _ => rfl⟩
          · exact ⟨(fun h => by cases h), fun h => absurd h hint⟩
  | some s =>
      simp only [counterValue]
      by_cases hwhole : IsWhole s
      · rw [if_pos hwhole, addInt64_mulInt64]
        cases hdeclared : declaredAmount c.dir c.text with
        | none => simp [hwhole]
        | some a =>
            obtain rfl := eq_of_declaredAmount hdeclared
            simp only [Option.bind_some, Ssdb.declared, Option.some.injEq, exists_eq_left', hwhole,
              not_true, false_or]
            split_ifs with hgood
            · rw [addInt64_of_isInt64 hgood.2]
              exact ⟨fun _ => hgood, fun _ => rfl⟩
            · exact ⟨(fun h => by cases h), fun h => absurd h hgood⟩
      · rw [if_neg hwhole]
        have hnone : ∀ a, Ssdb.declared (some s) a = none := by
          intro a
          rw [Ssdb.declared, if_neg]
          exact fun h => hwhole (isWhole_of_isNumeral h.1)
        cases declaredAmount c.dir c.text <;> simp [hwhole, hnone]

/-! ## What the operations do to the cells -/

namespace Cell

variable {db : Db} {cell : Cell} {by_ : ℤ}

/-- A refusal writes nothing. -/
theorem incr_refused (h : counterValue (cell.read db) by_ = none) (logType : BinlogType) :
    cell.incr db by_ logType = (0, 0, []) := by
  cases cell with
  | value key =>
      simp only [read] at h
      simp only [incr, Kv.incr, h]
  | field name key hfield =>
      simp only [read] at h
      simp only [incr, hincr, h]

theorem kvKey_ne_fieldKey (key name key' : Bytes) : ¬ IsFieldKey name key' (encodeKvKey key) := by
  rintro (heq | heq)
  · exact absurd (List.cons.inj heq).1 (by decide)
  · exact absurd (List.cons.inj heq).1 (by decide)

/-- A new value is stored in its cell and nowhere else. -/
theorem incr_stored {n : ℤ} (h : counterValue (cell.read db) by_ = some n) (logType : BinlogType) :
    (cell.incr db by_ logType).1 = 1 ∧ (cell.incr db by_ logType).2.1 = n ∧
      cells (db.apply (cell.incr db by_ logType).2.2) =
        Function.update (cells db) cell (some (str n)) := by
  cases cell with
  | value key =>
      simp only [read] at h
      have hincr : Kv.incr db key by_ logType = (1, n, [.put (encodeKvKey key) (.bytes (str n)),
          .addLog logType .kset (encodeKvKey key)]) := by
        simp only [Kv.incr, h]
      simp only [incr, hincr]
      refine ⟨trivial, trivial, ?_⟩
      -- the one put is under this key's own storage key, so the other cells are as before
      funext cell'
      cases cell' with
      | value key' =>
          show Kv.get (db.put (encodeKvKey key) (.bytes (str n))) key' = _
          rw [Kv.get_put, Function.update_apply, Function.update_apply]
          simp only [Cell.value.injEq]
          rfl
      | field name' key' hfield' =>
          rw [Function.update_of_ne (by simp)]
          show hget (db.put (encodeKvKey key) (.bytes (str n))) name' key' = hget db name' key'
          rw [hget, OrderedMap.get_put_of_ne]
          · rfl
          · exact fun heq => kvKey_ne_fieldKey key name' key' (Or.inl heq.symm)
  | field name key hfield =>
      simp only [read] at h
      have hincr : hincr db name key by_ logType =
          (1, n, hsetWrites db name key (str n) logType) := by
        have hret := hsetOne_nonneg db hfield (str n) logType
        simp only [hincr, h]
        rw [if_neg (by omega)]
        rfl
      simp only [incr, hincr]
      refine ⟨trivial, trivial, ?_⟩
      funext cell'
      cases cell' with
      | value key' =>
          rw [Function.update_of_ne (by simp)]
          show Kv.get (db.apply (hsetWrites db name key (str n) logType)) key' = Kv.get db key'
          rw [Kv.get, Kv.get, get_apply_of_onKeys (onField_hsetWrites db name key (str n) logType)]
          exact kvKey_ne_fieldKey key' name key
      | field name' key' hfield' =>
          show hget (db.apply (hsetWrites db name key (str n) logType)) name' key' = _
          rw [hget_apply_hsetWrites db hfield, Function.update_apply]
          simp only [Cell.field.injEq]
          rfl

end Cell

/-- The operation does what is declared when its new value is the declared one. -/
theorem countsAsDeclared_iff (db : Db) (cell : Cell) (by_ : ℤ) (logType : BinlogType) :
    CountsAsDeclared db cell by_ logType ↔
      counterValue (cell.read db) by_ = declared (cell.read db) by_ := by
  rw [CountsAsDeclared]
  cases hvalue : counterValue (cell.read db) by_ with
  | none =>
      rw [Cell.incr_refused hvalue]
      cases declared (cell.read db) by_ <;> simp
  | some n =>
      obtain ⟨hret, hnew, hcells⟩ := Cell.incr_stored hvalue logType
      cases declared (cell.read db) by_ with
      | none => simp [hret]
      | some m =>
          simp only [hret, hnew, hcells, true_and, Option.some.injEq]
          constructor
          · exact fun h => h.1
          · rintro rfl
            exact ⟨rfl, rfl⟩

theorem CounterCommand.answersAsDeclared_iff (db : Db) (c : CounterCommand) :
    c.AnswersAsDeclared db ↔
      counterValue (c.cell.read db) (mulInt64 c.dir.sign (amount c.text)) = c.declared db := by
  rw [AnswersAsDeclared, exec, run]
  cases hvalue : counterValue (c.cell.read db) (mulInt64 c.dir.sign (amount c.text)) with
  | none =>
      rw [Cell.incr_refused hvalue]
      cases c.declared db with
      | none => simp
      | some n =>
          have : ascii "error" ≠ ascii "ok" := by decide
          simp [this]
  | some n =>
      obtain ⟨hret, hnew, hcells⟩ := Cell.incr_stored hvalue .sync
      have hreply : replyInt 1 n = [ascii "ok", str n] := by
        rw [replyInt, if_neg (by decide)]
      simp only [hret, hnew, hcells, hreply, if_neg (show ¬ (1 : ℤ) = 0 by decide)]
      cases c.declared db with
      | none =>
          have : ascii "ok" ≠ ascii "error" := by decide
          simp [this]
      | some m =>
          simp only [Option.some.injEq]
          constructor
          · exact fun h => str_injective (List.cons.inj (List.cons.inj h.1).2).1
          · rintro rfl
            exact ⟨rfl, rfl⟩

/-! ## Runs -/

/-- The cell and the amount of a request that is not refused. -/
def CounterCommand.accepted (db : Db) (c : CounterCommand) : Option (Cell × ℤ) :=
  if (c.run db).2.head? = some (ascii "ok") then
    some (c.cell, c.dir.sign * amount c.text)
  else none

/-- The amounts for a cell. -/
def amountsOf (cell : Cell) (vs : List (Cell × ℤ)) : List ℤ :=
  (vs.filter (·.1 = cell)).map (·.2)

/-- The number that a cell starts from. -/
def startValue (db : Db) (cell : Cell) : ℤ :=
  match cell.read db with
  | none => 0
  | some s => strtoll s

/-- **A cell holds the exact sum** of the number it started from and the amounts `vs`. -/
def HoldsSum (start db : Db) (cell : Cell) (amounts : List ℤ) : Prop :=
  if amounts = [] then cells db cell = cells start cell
  else cells db cell = some (str (startValue start cell + amounts.sum)) ∧
    IsInt64 (startValue start cell + amounts.sum)

theorem amountsOf_append (cell : Cell) (vs vs' : List (Cell × ℤ)) :
    amountsOf cell (vs ++ vs') = amountsOf cell vs ++ amountsOf cell vs' := by
  simp [amountsOf]

/-- The declared new value adds the amount to what the cell holds. -/
theorem HoldsSum.declared {start db : Db} {cell : Cell} {amounts : List ℤ}
    (h : HoldsSum start db cell amounts) {a n : ℤ} (hn : Ssdb.declared (cell.read db) a = some n) :
    n = startValue start cell + amounts.sum + a ∧ IsInt64 n := by
  have hvalue : n = startValue db cell + a ∧ IsInt64 n := by
    rw [startValue]
    cases hread : cell.read db with
    | none =>
        rw [hread, Ssdb.declared] at hn
        split_ifs at hn with hint
        obtain rfl := Option.some.inj hn
        exact ⟨(zero_add _).symm, hint⟩
    | some s =>
        rw [hread, Ssdb.declared] at hn
        split_ifs at hn with hgood
        obtain rfl := Option.some.inj hn
        exact ⟨rfl, hgood.2⟩
  refine ⟨?_, hvalue.2⟩
  rw [HoldsSum] at h
  split_ifs at h with hnil
  · have hstart : startValue db cell = startValue start cell := by
      simp only [cells] at h
      rw [startValue, startValue, h]
    rw [hvalue.1, hstart, hnil]
    simp
  · have hnow : startValue db cell = startValue start cell + amounts.sum := by
      have hread : cell.read db = some (str (startValue start cell + amounts.sum)) := h.1
      rw [startValue, hread]
      exact strtoll_str h.2
    rw [hvalue.1, hnow]

/-- A step that is answered as declared keeps the sums. -/
theorem CounterCommand.holdsSum_step {start db : Db} {vs : List (Cell × ℤ)} {c : CounterCommand}
    (h : ∀ cell, HoldsSum start db cell (amountsOf cell vs)) (hc : c.Sound db) (cell : Cell) :
    HoldsSum start (c.exec db) cell (amountsOf cell (vs ++ (c.accepted db).toList)) := by
  have hanswer := (c.answersAsDeclared_iff db).mpr ((c.counterValue_eq_declared_iff db).mpr hc)
  rw [AnswersAsDeclared] at hanswer
  cases hdeclared : c.declared db with
  | none =>
      rw [hdeclared] at hanswer
      have haccepted : c.accepted db = none := by
        rw [accepted, hanswer.1, if_neg (by decide)]
      rw [haccepted, hanswer.2]
      simpa using h cell
  | some n =>
      rw [hdeclared] at hanswer
      obtain ⟨hreply, hcells⟩ := hanswer
      have haccepted : c.accepted db = some (c.cell, c.dir.sign * amount c.text) := by
        rw [accepted, hreply]
        exact if_pos rfl
      rw [haccepted, Option.toList_some, amountsOf_append]
      rcases eq_or_ne cell c.cell with rfl | hne
      · obtain ⟨a, ha, hn⟩ := Option.bind_eq_some_iff.mp hdeclared
        obtain rfl := eq_of_declaredAmount ha
        obtain ⟨hsum, hint⟩ := (h c.cell).declared hn
        have hone : amountsOf c.cell [(c.cell, c.dir.sign * amount c.text)] =
            [c.dir.sign * amount c.text] := by
          simp [amountsOf]
        rw [HoldsSum, hone, if_neg (by simp), List.sum_append, List.sum_singleton, ← add_assoc, ← hsum,
          hcells, Function.update_self]
        exact ⟨rfl, hint⟩
      · have hnone : amountsOf cell [(c.cell, c.dir.sign * amount c.text)] = [] := by
          simp [amountsOf, hne.symm]
        have hsame : cells (c.exec db) cell = cells db cell := by
          rw [hcells, Function.update_of_ne hne]
        have hbefore := h cell
        rw [HoldsSum] at hbefore ⊢
        rw [hnone, List.append_nil, hsame]
        exact hbefore

/-- **Counter arithmetic.**  `incr` and `hincr` do what they declare exactly if the cell is empty, or
holds something that is not read as a number, or holds the text of an `int64_t` and the sum is one.
The commands do it exactly if what is stored is not read as a number, or the amount is a numeral and
the exact sum is in range.  In a run of such commands every cell holds the exact sum of the number it
started from and the amounts that were accepted. -/
theorem counter_arithmetic (db : Db) :
    (∀ (cell : Cell) (by_ : ℤ) (logType : BinlogType), IsInt64 by_ →
      (CountsAsDeclared db cell by_ logType ↔ Countable (cell.read db) by_)) ∧
    (∀ c : CounterCommand, c.AnswersAsDeclared db ↔ c.Sound db) ∧
    ∀ cs : List CounterCommand,
      Guarded CounterCommand.exec (fun db c => c.Sound db) db cs →
        ∀ cell, HoldsSum db (cs.foldl CounterCommand.exec db) cell
          (amountsOf cell (eventValues CounterCommand.exec (fun db c => c.accepted db) db cs)) := by
  refine ⟨?_, ?_, ?_⟩
  · intro cell by_ logType hby
    rw [countsAsDeclared_iff, counterValue_eq_declared_iff _ hby]
  · intro c
    rw [c.answersAsDeclared_iff, c.counterValue_eq_declared_iff]
  · intro cs hguarded
    have hstart : ∀ cell, HoldsSum db db cell (amountsOf cell []) := by
      intro cell
      rw [HoldsSum, if_pos (show amountsOf cell [] = [] from rfl)]
    exact hguarded.history (H := fun vs db' => ∀ cell, HoldsSum db db' cell (amountsOf cell vs))
      (fun vs db' c h hc cell => c.holdsSum_step h hc cell) hstart

/-- The requests of a small run: `incr k 5` and `decr k 7`. -/
def sampleCounts : List CounterCommand :=
  [⟨.value (ascii "k"), .up, some (ascii "5")⟩, ⟨.value (ascii "k"), .down, some (ascii "7")⟩]

theorem counter_arithmetic_sample :
    Guarded CounterCommand.exec (fun db c => c.Sound db) OrderedMap.empty sampleCounts ∧
      HoldsSum OrderedMap.empty (sampleCounts.foldl CounterCommand.exec OrderedMap.empty)
        (.value (ascii "k")) (amountsOf (.value (ascii "k")) (eventValues CounterCommand.exec
          (fun db c => c.accepted db) OrderedMap.empty sampleCounts)) := by
  have hguarded : Guarded CounterCommand.exec (fun db c => c.Sound db) OrderedMap.empty
      sampleCounts := by
    refine ⟨⟨5, by decide, by decide⟩, Or.inr ⟨by decide, -7, by decide, by decide⟩, trivial⟩
  exact ⟨hguarded, (counter_arithmetic OrderedMap.empty).2.2 _ hguarded _⟩

/-- The largest `int64_t`, stored under a key. -/
def fullCounter : Db :=
  OrderedMap.empty.put (encodeKvKey (ascii "k")) (.bytes (ascii "9223372036854775807"))

/-- **A counter that wraps around**: one more than the largest number is the smallest. -/
theorem incr_wraps :
    ((Cell.value (ascii "k")).incr fullCounter 1 .sync).2.1 = -9223372036854775808 ∧
      ¬ CountsAsDeclared fullCounter (.value (ascii "k")) 1 .sync := by
  have hread : (Cell.value (ascii "k")).read fullCounter = some (ascii "9223372036854775807") := by
    decide
  have hvalue : counterValue ((Cell.value (ascii "k")).read fullCounter) 1 =
      some (-9223372036854775808) := by
    rw [hread]
    decide
  refine ⟨(Cell.incr_stored hvalue .sync).2.1, ?_⟩
  rw [countsAsDeclared_iff, hvalue, hread]
  decide

end Ssdb

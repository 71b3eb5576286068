/-
# The SQL builders

`helper_getInsertSQL` and `helper_getUpdateSQL` of `lib/helper.php` make the text of a statement from an
array.  A string value is put between quotes as it is, `null` becomes the empty text, and `UPDATE`
leaves out the columns that are equal to the key field under PHP's `==`.

`builders_read_back_iff` says for which arrays MySQL reads the entries of the array: the strings have to
mean themselves between quotes, `null` must not occur, and an `UPDATE` needs a column besides the key
field.
-/
import DoudizhuBackend.PhpArray
import DoudizhuBackend.Mysql.Statement
import Mathlib.Algebra.Order.BigOperators.Group.List

open Php

/-! ## The functions of `lib/helper.php` -/

namespace Helper

/-- `is_string`. -/
def isString : Value → Bool
  | .str _ => true
  | .bytes _ => true
  | _ => false

/-- A value in the text of a statement: a string between quotes, anything else as it is printed. -/
def sqlValue (value : Value) : String :=
  if isString value then "'" ++ value.text ++ "'" else value.text

/-- `substr($str, 0, strlen($str) - 1)`, which is empty (`false`) for the empty string. -/
def chop (str : String) : String := String.ofList str.toList.dropLast

/-- `helper_getInsertSQL`. -/
def getInsertSQL (tableName : String) (dataArray : Fields) : String :=
  let strs := dataArray.entries.foldl
    (fun strs kv => (strs.1 ++ kv.1 ++ ",", strs.2 ++ sqlValue kv.2 ++ ",")) ("", "")
  "INSERT INTO " ++ tableName ++ " (" ++ chop strs.1 ++ ")" ++ " VALUES " ++ "(" ++ chop strs.2 ++ ")"

/-- `helper_getUpdateSQL`. -/
def getUpdateSQL (tableName : String) (keyName : Value) (dataArray : Fields) : String :=
  let str := dataArray.entries.foldl
    (fun str kv =>
      if Value.looseEq (.str kv.1) keyName then str else str ++ kv.1 ++ "=" ++ sqlValue kv.2 ++ ",") ""
  if Value.looseEq keyName .null then "UPDATE " ++ tableName ++ " SET " ++ chop str
  else "UPDATE " ++ tableName ++ " SET " ++ chop str ++ " WHERE " ++ keyName.text ++ "=" ++
    sqlValue (dataArray.get keyName.text)

end Helper

namespace SqlBuilders

open Helper Mysql

/-! ## Rows -/

/-- The literal that stands for a value of a column. -/
def literalOf : Value → Literal
  | .null => .null
  | .bool b => .int b.toNat
  | .num q => .int q.num
  | .str s => .str s.toList
  | .bytes b => .str (latin1 b).toList

/-- The values of columns: strings, integers and `null`. -/
def isColumnValue : Value → Bool
  | .null => true
  | .bool _ => false
  | .num q => q.den = 1
  | .str _ => true
  | .bytes _ => true

/-- An array for a statement: its keys are identifiers, its values strings, integers or `null`. -/
structure Row (reserved : List Char → Bool) where
  fields : Fields
  identifiers : ∀ kv ∈ fields.entries, isIdentifier reserved kv.1.toList = true
  values : ∀ kv ∈ fields.entries, isColumnValue kv.2 = true

/-- The column and the literal of an entry. -/
def pairOf (kv : Sigma fun _ : String => Value) : List Char × Literal := (kv.1.toList, literalOf kv.2)

/-- A value that the builders write so that MySQL reads it back: an integer, or a string that means
itself between quotes. -/
def writable : Value → Bool
  | .null => false
  | .bool _ => false
  | .num _ => true
  | .str s => verbatim s.toList
  | .bytes b => verbatim (latin1 b).toList

/-! ## The texts -/

/-- The text of a value as characters. -/
def valueText (value : Value) : List Char := (sqlValue value).toList

/-- `chop` takes the last character. -/
theorem chop_toList (str : String) : (chop str).toList = str.toList.dropLast := String.toList_ofList

/-- Appending in a loop. -/
theorem foldl_toList {α : Type} (f : α → String) (l : List α) (str : String) :
    (l.foldl (fun str x => str ++ f x) str).toList = str.toList ++ l.flatMap fun x => (f x).toList := by
  induction l generalizing str with
  | nil => simp
  | cons x l ih => rw [List.foldl_cons, ih, String.toList_append, List.flatMap_cons, List.append_assoc]

/-- Two strings that are extended in one loop. -/
theorem foldl_pair {α : Type} (f g : α → String) (l : List α) (strs : String × String) :
    l.foldl (fun strs x => (strs.1 ++ f x, strs.2 ++ g x)) strs =
      (l.foldl (fun str x => str ++ f x) strs.1, l.foldl (fun str x => str ++ g x) strs.2) := by
  induction l generalizing strs with
  | nil => rfl
  | cons x l ih => rw [List.foldl_cons, ih, List.foldl_cons, List.foldl_cons]

/-- The text of an `INSERT`. -/
theorem getInsertSQL_toList (table : String) (data : Fields) :
    (getInsertSQL table data).toList =
      Keyword.insert.text ++ ' ' :: (Keyword.into.text ++ ' ' :: (table.toList ++ ' ' :: '(' ::
        (commas (fun kv => kv.1.toList) data.entries ++ ')' :: ' ' :: (Keyword.values.text ++ ' ' :: '(' ::
          (commas (fun kv => valueText kv.2) data.entries ++ [')']))))) := by
  have hcolumns : (chop (data.entries.foldl (fun str kv => str ++ (kv.1 ++ ",")) "")).toList =
      commas (fun kv => kv.1.toList) data.entries := by
    rw [chop_toList, foldl_toList, ← dropLast_flatMap]
    simp only [String.toList_append]
    rfl
  have hvalues : (chop (data.entries.foldl (fun str kv => str ++ (sqlValue kv.2 ++ ",")) "")).toList =
      commas (fun kv => valueText kv.2) data.entries := by
    rw [chop_toList, foldl_toList, ← dropLast_flatMap]
    simp only [String.toList_append]
    rfl
  unfold getInsertSQL
  simp only [String.append_assoc]
  rw [foldl_pair]
  simp only [String.toList_append, hcolumns, hvalues]
  rfl

/-- The columns that `helper_getUpdateSQL` sets. -/
def setEntries (keyName : Value) (data : Fields) : List (Sigma fun _ : String => Value) :=
  data.entries.filter fun kv => !Value.looseEq (.str kv.1) keyName

/-- The text of an assignment. -/
def entryText (kv : Sigma fun _ : String => Value) : List Char := kv.1.toList ++ '=' :: valueText kv.2

/-- The text of an `UPDATE`. -/
theorem getUpdateSQL_toList (table : String) {keyName : Value} (hkey : Value.looseEq keyName .null = false)
    (data : Fields) :
    (getUpdateSQL table keyName data).toList =
      Keyword.update.text ++ ' ' :: (table.toList ++ ' ' :: (Keyword.set.text ++ ' ' ::
        (commas entryText (setEntries keyName data) ++ ' ' :: (Keyword.where.text ++ ' ' ::
          (keyName.text.toList ++ '=' :: valueText (data.get keyName.text)))))) := by
  have hset : (chop (data.entries.foldl (fun str kv =>
      if Value.looseEq (.str kv.1) keyName then str else str ++ kv.1 ++ "=" ++ sqlValue kv.2 ++ ",") "")).toList =
      commas entryText (setEntries keyName data) := by
    have hfilter : ∀ (l : List (Sigma fun _ : String => Value)) str, l.foldl (fun str kv =>
        if Value.looseEq (.str kv.1) keyName then str else str ++ kv.1 ++ "=" ++ sqlValue kv.2 ++ ",") str =
        (l.filter fun kv => !Value.looseEq (.str kv.1) keyName).foldl
          (fun str kv => str ++ (kv.1 ++ "=" ++ sqlValue kv.2 ++ ",")) str := by
      intro l
      induction l with
      | nil => intro str; rfl
      | cons kv l ih =>
          intro str
          rw [List.foldl_cons, ih]
          by_cases hkv : Value.looseEq (.str kv.1) keyName = true
          · rw [if_pos hkv, List.filter_cons_of_neg (by simp [hkv])]
          · rw [if_neg hkv, List.filter_cons_of_pos (by simp [hkv]), List.foldl_cons]
            simp only [String.append_assoc]
    rw [hfilter, chop_toList, foldl_toList, ← dropLast_flatMap]
    simp only [String.toList_append, entryText, valueText, List.append_assoc, List.cons_append]
    rfl
  unfold getUpdateSQL
  rw [hkey]
  simp only [String.append_assoc, String.toList_append, Bool.false_eq_true, if_false] at hset ⊢
  rw [hset]
  rfl

/-! ## The weights of the texts -/

/-- A digit weighs one. -/
theorem charWeight_of_isDigit {c : Char} (h : c.isDigit = true) : charWeight c = 1 := by
  have hdigit := Char.isDigit_iff_toNat.mp h
  have hzero : '0'.toNat = 48 := rfl
  exact charWeight_of_lt (by omega)

/-- A numeral weighs its length. -/
theorem weight_toDigits (n : ℕ) : weight (Nat.toDigits 10 n) = (Nat.toDigits 10 n).length := by
  have hdigits : ∀ ds : List Char, (∀ c ∈ ds, c.isDigit = true) → weight ds = ds.length := by
    intro ds
    induction ds with
    | nil => intro _; rfl
    | cons c ds ih =>
        intro h
        rw [weight_cons, charWeight_of_isDigit (h c List.mem_cons_self),
          ih fun d hd => h d (List.mem_cons_of_mem c hd), List.length_cons, Nat.add_comm]
  exact hdigits _ fun _ => isDigit_of_mem_toDigits

/-- The text of an integer. -/
theorem valueText_int (n : ℤ) : valueText (.num (n : ℚ)) = (Literal.int n).text := by
  show (Value.num (n : ℚ)).text.toList = _
  rw [text_intCast, intChars, Literal.text]
  split <;> rfl

/-- A number without fraction is an integer. -/
theorem eq_intCast_of_den {q : ℚ} (h : q.den = 1) : q = (q.num : ℚ) := by
  rw [← Rat.num_div_den q, h]
  simp

/-- The text of a string. -/
theorem valueText_str (s : String) : valueText (.str s) = quote :: (s.toList ++ [quote]) := by
  show ("'" ++ s ++ "'").toList = _
  simp only [String.toList_append]
  rfl

/-- The text of a byte string. -/
theorem valueText_bytes (b : List UInt8) : valueText (.bytes b) = quote :: ((latin1 b).toList ++ [quote]) :=
  valueText_str (latin1 b)

/-- A value that can be read back is written as its literal. -/
theorem valueText_of_writable {v : Value} (hv : isColumnValue v = true) (h : writable v = true) :
    valueText v = (literalOf v).text ∧ (literalOf v).plain = true := by
  cases v with
  | null => cases h
  | bool b => cases h
  | num q =>
      have hq := eq_intCast_of_den (of_decide_eq_true hv)
      refine ⟨?_, rfl⟩
      rw [literalOf, ← valueText_int, ← hq]
  | str s => exact ⟨valueText_str s, h⟩
  | bytes b => exact ⟨valueText_bytes b, h⟩

/-- The text of a value weighs no more than its literal, and less if it is not read back. -/
theorem valueText_weight {v : Value} (hv : isColumnValue v = true) :
    weight (valueText v) + (if writable v then 0 else 1) ≤ (literalOf v).weight := by
  have hquote : charWeight quote = 1 := rfl
  have hstr : ∀ s : List Char, weight (quote :: (s ++ [quote])) + (if verbatim s then 0 else 1) = strWeight s := by
    intro s
    simp only [weight_cons, weight_append, weight_nil, hquote, strWeight]
    omega
  cases v with
  | null => decide
  | bool b => cases hv
  | num q =>
      have hq := eq_intCast_of_den (of_decide_eq_true hv)
      rw [literalOf, Literal.weight]
      rw [hq, valueText_int, Literal.text, weight_append, weight_toDigits, intWeight, Rat.num_intCast]
      split
      · exact le_rfl
      · exact le_rfl
  | str s =>
      rw [valueText_str, writable, literalOf, Literal.weight, hstr]
  | bytes b =>
      rw [valueText_bytes, writable, literalOf, Literal.weight, hstr]

/-! ## Reading the statements back -/

/-- Two sums of one list, with a gap at one place. -/
theorem sum_add_le {α : Type} {f g : α → ℕ} {l : List α} {d : ℕ} (hle : ∀ x ∈ l, f x ≤ g x)
    (hgap : ∃ x ∈ l, f x + d ≤ g x) : (l.map f).sum + d ≤ (l.map g).sum := by
  induction l with
  | nil => simp at hgap
  | cons y l ih =>
      simp only [List.map_cons, List.sum_cons]
      have hy := hle y List.mem_cons_self
      have htail : (l.map f).sum ≤ (l.map g).sum :=
        List.sum_le_sum fun x hx => hle x (List.mem_cons_of_mem y hx)
      obtain ⟨x, hx, hgap⟩ := hgap
      rcases List.mem_cons.mp hx with rfl | hx
      · omega
      · have := ih (fun x hx => hle x (List.mem_cons_of_mem y hx)) ⟨x, hx, hgap⟩
        omega

/-- The weight of an `INSERT`. -/
theorem weight_getInsertSQL (table : String) (data : Fields) :
    weight (getInsertSQL table data).toList = 20 + weight table.toList +
      listWeight (fun kv => weight kv.1.toList) data.entries +
      listWeight (fun kv => weight (valueText kv.2)) data.entries := by
  have hinsert : weight Keyword.insert.text = 6 := by decide
  have hinto : weight Keyword.into.text = 4 := by decide
  have hvalues : weight Keyword.values.text = 6 := by decide
  have hspace : charWeight ' ' = 0 := rfl
  have hopen : charWeight '(' = 1 := rfl
  have hclose : charWeight ')' = 1 := rfl
  rw [getInsertSQL_toList]
  simp only [weight_append, weight_cons, weight_nil, weight_commas, hinsert, hinto, hvalues, hspace, hopen,
    hclose]
  -- `omega` would compare the weights with each other by computing them
  clear hinsert hinto hvalues hspace hopen hclose
  generalize weight table.toList = name
  generalize listWeight _ data.entries = columns
  generalize listWeight _ data.entries = values
  omega

/-- The weight of an assignment. -/
theorem weight_entryText (kv : Sigma fun _ : String => Value) :
    weight (entryText kv) = weight kv.1.toList + 1 + weight (valueText kv.2) := by
  have hequals : charWeight '=' = 1 := rfl
  rw [entryText, weight_append, weight_cons, hequals]
  exact (Nat.add_assoc _ _ _).symm

/-- The weight of an `UPDATE`. -/
theorem weight_getUpdateSQL (table : String) {keyName : Value} (hkey : Value.looseEq keyName .null = false)
    (data : Fields) :
    weight (getUpdateSQL table keyName data).toList = 9 + weight table.toList +
      listWeight (fun kv => weight (entryText kv)) (setEntries keyName data) +
      (5 + (weight keyName.text.toList + 1 + weight (valueText (data.get keyName.text)))) := by
  have hupdate : weight Keyword.update.text = 6 := by decide
  have hset : weight Keyword.set.text = 3 := by decide
  have hwhere : weight Keyword.where.text = 5 := by decide
  have hspace : charWeight ' ' = 0 := rfl
  have hequals : charWeight '=' = 1 := rfl
  rw [getUpdateSQL_toList table hkey]
  simp only [weight_append, weight_cons, weight_commas, hupdate, hset, hwhere, hspace, hequals]
  clear hupdate hset hwhere hspace hequals
  generalize weight table.toList = name
  generalize listWeight _ _ = columns
  generalize weight keyName.text.toList = key
  generalize weight (valueText _) = value
  omega

section ReadBack

variable {reserved : List Char → Bool} (row : Row reserved) {table : String}

/-- The statement that the entries of a row mean in an `INSERT`. -/
def Row.insert (table : String) : Statement := .insert table.toList (row.fields.entries.map pairOf)

/-- The statement that the entries of a row mean in an `UPDATE` with the key field `keyName`. -/
def Row.update (table keyName : String) : Statement :=
  .update table.toList ((row.fields.entries.filter fun kv => kv.1 ≠ keyName).map pairOf)
    (some (keyName.toList, literalOf (row.fields.get keyName)))

/-- All values of the row can be read back. -/
def Row.Writable : Prop := ∀ kv ∈ row.fields.entries, writable kv.2 = true

/-- An `INSERT` that is read back has a row that can be written. -/
theorem writable_of_read_insert
    (h : read reserved (getInsertSQL table row.fields).toList = some (row.insert table)) : row.Writable := by
  have hweight := read_weight h
  rw [weight_getInsertSQL, Row.insert, Statement.weight, listWeight_map, listWeight_map] at hweight
  have hlist : listWeight (fun kv => (literalOf kv.2).weight) row.fields.entries ≤
      listWeight (fun kv => weight (valueText kv.2)) row.fields.entries := Nat.le_of_add_le_add_left hweight
  intro kv hkv
  by_contra hbad
  have hle : ∀ kv ∈ row.fields.entries, weight (valueText kv.2) ≤ (literalOf kv.2).weight :=
    fun x hx => (Nat.le_add_right _ _).trans (valueText_weight (row.values x hx))
  have hlt : weight (valueText kv.2) + 1 ≤ (literalOf kv.2).weight := by
    have := valueText_weight (row.values kv hkv)
    rwa [if_neg hbad] at this
  have hgap := sum_add_le hle ⟨kv, hkv, hlt⟩
  exact absurd (hgap.trans (Nat.le_of_add_le_add_right hlist)) (Nat.not_succ_le_self _)

/-- The pairs of a row that can be read back are pairs of a plain statement. -/
theorem plain_of_writable (h : row.Writable) {kv : Sigma fun _ : String => Value}
    (hkv : kv ∈ row.fields.entries) :
    isIdentifier reserved (pairOf kv).1 = true ∧ (pairOf kv).2.plain = true :=
  ⟨row.identifiers kv hkv, (valueText_of_writable (row.values kv hkv) (h kv hkv)).2⟩

/-- And the row of one that can be written is read back. -/
theorem read_insert_of_writable (htable : isIdentifier reserved table.toList = true) (h : row.Writable) :
    read reserved (getInsertSQL table row.fields).toList = some (row.insert table) := by
  have htext : (getInsertSQL table row.fields).toList =
      insertText table.toList (row.fields.entries.map pairOf) := by
    have hvalues : commas (fun kv => valueText kv.2) row.fields.entries =
        commas (fun kv => (literalOf kv.2).text) row.fields.entries :=
      commas_congr fun kv hkv => (valueText_of_writable (row.values kv hkv) (h kv hkv)).1
    rw [getInsertSQL_toList, hvalues, insertText, List.map_map, List.map_map, commas_map, commas_map]
    rfl
  rw [htext, Row.insert]
  apply read_insertText htable
  intro p hp
  obtain ⟨kv, hkv, rfl⟩ := List.mem_map.mp hp
  exact plain_of_writable row h hkv

/-! ### `UPDATE` -/

variable {keyName : String}

/-- The value of an entry. -/
theorem get_of_mem {data : Fields} {kv : Sigma fun _ : String => Value} (h : kv ∈ data.entries) :
    data.get kv.1 = kv.2 := by
  have hlookup : data.lookup kv.1 = some kv.2 := AList.mem_lookup_iff.mpr h
  rw [Fields.get, hlookup, Option.getD_some]

/-- A key that is there has an entry. -/
theorem exists_entry {data : Fields} (h : keyName ∈ data) : ∃ v, ⟨keyName, v⟩ ∈ data.entries := by
  obtain ⟨kv, hkv, rfl⟩ := List.mem_map.mp (AList.mem_keys.mp h)
  exact ⟨kv.2, hkv⟩

/-- An identifier is no empty string, so the branch without a condition is not taken. -/
theorem Row.looseEq_null (hkey : keyName ∈ row.fields) : Value.looseEq (.str keyName) .null = false := by
  obtain ⟨v, hv⟩ := exists_entry hkey
  have hword := isWord_of_isIdentifier (row.identifiers _ hv)
  show (keyName == "") = false
  rw [beq_eq_false_iff_ne]
  rintro rfl
  cases hword

/-- The columns besides the key field. -/
def Row.others (keyName : String) : List (Sigma fun _ : String => Value) :=
  row.fields.entries.filter fun kv => kv.1 ≠ keyName

/-- The entries that an `UPDATE` sets. -/
theorem Row.mem_others {kv : Sigma fun _ : String => Value} :
    kv ∈ row.others keyName ↔ kv ∈ row.fields.entries ∧ kv.1 ≠ keyName := by
  rw [Row.others, List.mem_filter, decide_eq_true_eq]

/-- The columns that are set are among the columns besides the key field. -/
theorem setEntries_eq_filter :
    setEntries (.str keyName) row.fields =
      (row.others keyName).filter fun kv => !Value.looseEq (.str kv.1) (.str keyName) := by
  rw [setEntries, Row.others, List.filter_filter]
  apply List.filter_congr
  intro kv _
  by_cases h : kv.1 = keyName
  · rw [h, Value.looseEq_str_self]
    rfl
  · simp [h]

/-- The weight of an entry in the text: nothing if it is left out. -/
def textWeight (keyName : String) (kv : Sigma fun _ : String => Value) : ℕ :=
  if Value.looseEq (.str kv.1) (.str keyName) then 0 else weight (entryText kv)

/-- The entries that are set are not heavier than the row. -/
theorem listWeight_setEntries_le (keyName : String) :
    listWeight (fun kv => weight (entryText kv)) (setEntries (.str keyName) row.fields) ≤
      ((row.others keyName).map (textWeight keyName)).sum + ((row.others keyName).length - 1) := by
  have hsum : ∀ l : List (Sigma fun _ : String => Value),
      ((l.filter fun kv => !Value.looseEq (.str kv.1) (.str keyName)).map fun kv => weight (entryText kv)).sum =
        (l.map (textWeight keyName)).sum := by
    intro l
    induction l with
    | nil => rfl
    | cons kv l ih =>
        rw [List.map_cons, List.sum_cons, ← ih, textWeight]
        by_cases h : Value.looseEq (.str kv.1) (.str keyName) = true
        · rw [if_pos h, List.filter_cons_of_neg (by simp [h]), Nat.zero_add]
        · rw [if_neg h, List.filter_cons_of_pos (by simp [h]), List.map_cons, List.sum_cons]
  rw [setEntries_eq_filter, listWeight, hsum]
  exact Nat.add_le_add_left (Nat.sub_le_sub_right (List.length_filter_le _ _) 1) _

/-- An entry weighs no more in the text than in the statement, and less if it is left out or not read
back. -/
theorem textWeight_le (keyName : String) {kv : Sigma fun _ : String => Value} (hkv : kv ∈ row.fields.entries) :
    textWeight keyName kv +
      (if Value.looseEq (.str kv.1) (.str keyName) = false ∧ writable kv.2 = true then 0 else 1) ≤
      pairWeight (pairOf kv) := by
  have hvalue := valueText_weight (row.values kv hkv)
  have hpair : pairWeight (pairOf kv) = weight kv.1.toList + 1 + (literalOf kv.2).weight := rfl
  rw [hpair, textWeight, weight_entryText]
  generalize weight kv.1.toList = name at *
  generalize weight (valueText kv.2) = text at *
  generalize (literalOf kv.2).weight = literal at *
  cases Value.looseEq (.str kv.1) (.str keyName) with
  | true =>
      simp only [if_true, Bool.true_eq_false, false_and, if_false]
      omega
  | false =>
      cases hw : writable kv.2 with
      | true =>
          rw [hw] at hvalue
          simp only [Bool.false_eq_true, if_false, if_true, and_self] at hvalue ⊢
          omega
      | false =>
          rw [hw] at hvalue
          simp only [Bool.false_eq_true, if_false, and_false] at hvalue ⊢
          omega

/-- An `UPDATE` that is read back has a row that can be written, and sets every column but its key. -/
theorem of_read_update (hkey : keyName ∈ row.fields)
    (h : read reserved (getUpdateSQL table (.str keyName) row.fields).toList = some (row.update table keyName)) :
    writable (row.fields.get keyName) = true ∧ ∀ kv ∈ row.others keyName,
      Value.looseEq (.str kv.1) (.str keyName) = false ∧ writable kv.2 = true := by
  obtain ⟨v, hv⟩ := exists_entry hkey
  have hget : row.fields.get keyName = v := get_of_mem hv
  have hweight := read_weight h
  rw [weight_getUpdateSQL table (row.looseEq_null hkey), Row.update, Statement.weight, listWeight_map] at hweight
  -- what is left of the weights: the columns and the value of the key field
  have hsums : ((row.others keyName).map fun kv => pairWeight (pairOf kv)).sum + (literalOf v).weight ≤
      ((row.others keyName).map (textWeight keyName)).sum + weight (valueText v) := by
    have hset := listWeight_setEntries_le row keyName
    have hothers : listWeight (fun kv => pairWeight (pairOf kv)) (row.others keyName) =
        ((row.others keyName).map fun kv => pairWeight (pairOf kv)).sum +
          ((row.others keyName).length - 1) := rfl
    have hcond : ((some (keyName.toList, literalOf v)).elim 0 fun p => 5 + pairWeight p) =
        5 + (weight keyName.toList + 1 + (literalOf v).weight) := rfl
    have htext : (Value.str keyName).text = keyName := rfl
    rw [htext, hget, hcond] at hweight
    change 9 + _ + listWeight (fun kv => pairWeight (pairOf kv)) (row.others keyName) + _ ≤ _ at hweight
    rw [hothers] at hweight
    generalize ((row.others keyName).map (textWeight keyName)).sum = texts at hset ⊢
    generalize ((row.others keyName).map fun kv => pairWeight (pairOf kv)).sum = pairs at hweight ⊢
    generalize listWeight _ _ = columns at hweight hset
    generalize weight table.toList = name at hweight
    generalize weight keyName.toList = key at hweight
    generalize weight (valueText v) = value at hweight ⊢
    generalize (literalOf v).weight = literal at hweight ⊢
    omega
  have hvalue := valueText_weight (row.values _ hv)
  have hle : ∀ kv ∈ row.others keyName, textWeight keyName kv ≤ pairWeight (pairOf kv) :=
    fun kv hkv => (Nat.le_add_right _ _).trans (textWeight_le row keyName (row.mem_others.mp hkv).1)
  have htotal : ((row.others keyName).map (textWeight keyName)).sum ≤
      ((row.others keyName).map fun kv => pairWeight (pairOf kv)).sum := List.sum_le_sum hle
  constructor
  · by_contra hbad
    rw [hget] at hbad
    rw [if_neg hbad] at hvalue
    exact absurd ((Nat.add_le_add htotal hvalue).trans hsums) (by rw [← Nat.add_assoc]; exact Nat.not_succ_le_self _)
  · intro kv hkv
    by_contra hbad
    have hlt := textWeight_le row keyName (row.mem_others.mp hkv).1
    rw [if_neg hbad] at hlt
    have hgap := sum_add_le hle ⟨kv, hkv, hlt⟩
    have hliteral : weight (valueText v) ≤ (literalOf v).weight := (Nat.le_add_right _ _).trans hvalue
    have := (Nat.add_le_add hgap hliteral).trans hsums
    rw [Nat.add_right_comm] at this
    exact absurd this (Nat.not_succ_le_self _)

/-- And it is read back for such a row. -/
theorem read_update_of_writable (htable : isIdentifier reserved table.toList = true) (hkey : keyName ∈ row.fields)
    (h : row.Writable) (hne : row.others keyName ≠ [])
    (hloose : ∀ kv ∈ row.others keyName, Value.looseEq (.str kv.1) (.str keyName) = false) :
    read reserved (getUpdateSQL table (.str keyName) row.fields).toList = some (row.update table keyName) := by
  obtain ⟨v, hv⟩ := exists_entry hkey
  have hget : row.fields.get keyName = v := get_of_mem hv
  have htext : (getUpdateSQL table (.str keyName) row.fields).toList =
      updateText table.toList ((row.others keyName).map pairOf) (keyName.toList, literalOf v) := by
    have hset : setEntries (.str keyName) row.fields = row.others keyName := by
      rw [setEntries_eq_filter, List.filter_eq_self]
      intro kv hkv
      rw [hloose kv hkv]
      rfl
    have hentries : commas entryText (row.others keyName) =
        commas (fun kv => pairText (pairOf kv)) (row.others keyName) := by
      apply commas_congr
      intro kv hkv
      have hkv := (row.mem_others.mp hkv).1
      rw [entryText, (valueText_of_writable (row.values kv hkv) (h kv hkv)).1]
      rfl
    have hname : (Value.str keyName).text = keyName := rfl
    rw [getUpdateSQL_toList table (row.looseEq_null hkey), hset, hentries, hname, hget,
      (valueText_of_writable (row.values _ hv) (h _ hv)).1, updateText, commas_map]
    rfl
  have hupdate : row.update table keyName =
      .update table.toList ((row.others keyName).map pairOf) (some (keyName.toList, literalOf v)) := by
    rw [Row.update, hget]
    rfl
  have hcond := plain_of_writable row h hv
  have hset : (row.others keyName).map pairOf ≠ [] := fun hnil => hne (List.map_eq_nil_iff.mp hnil)
  rw [htext, hupdate]
  refine read_updateText htable ?_ hset hcond
  intro p hp
  obtain ⟨kv, hkv, rfl⟩ := List.mem_map.mp hp
  exact plain_of_writable row h (row.mem_others.mp hkv).1

end ReadBack

/-- **The builders and MySQL.**  For every table name and every array of strings, integers and `null`s
with identifiers as keys: the text of the `INSERT` is one statement with exactly the entries of the array
if and only if every value can be read back.  The text of the `UPDATE` sets exactly the entries besides the
key field where the key field has its value if and only if moreover there is such an entry and PHP does not
take another key for the key field. -/
theorem builders_read_back_iff (reserved : List Char → Bool) (table : String)
    (htable : isIdentifier reserved table.toList = true) (row : Row reserved) :
    (read reserved (getInsertSQL table row.fields).toList = some (row.insert table) ↔
      ∀ kv ∈ row.fields.entries, writable kv.2 = true) ∧
    ∀ keyName ∈ row.fields,
      (read reserved (getUpdateSQL table (.str keyName) row.fields).toList = some (row.update table keyName) ↔
        (∀ kv ∈ row.fields.entries, writable kv.2 = true) ∧
        (∃ kv ∈ row.fields.entries, kv.1 ≠ keyName) ∧
        ∀ kv ∈ row.fields.entries, Value.looseEq (.str kv.1) (.str keyName) = true → kv.1 = keyName) := by
  refine ⟨⟨writable_of_read_insert row, read_insert_of_writable row htable⟩, ?_⟩
  intro keyName hkey
  constructor
  · intro h
    obtain ⟨hvalue, hothers⟩ := of_read_update row hkey h
    refine ⟨?_, ?_, ?_⟩
    · intro kv hkv
      by_cases hname : kv.1 = keyName
      · rw [← get_of_mem hkv, hname]
        exact hvalue
      · exact (hothers kv (row.mem_others.mpr ⟨hkv, hname⟩)).2
    · have hne : row.others keyName ≠ [] := by
        intro hnil
        exact set_ne_nil_of_read h (congrArg (List.map pairOf) hnil)
      obtain ⟨kv, hkv⟩ := List.exists_mem_of_ne_nil _ hne
      exact ⟨kv, row.mem_others.mp hkv⟩
    · intro kv hkv hloose
      by_contra hname
      rw [(hothers kv (row.mem_others.mpr ⟨hkv, hname⟩)).1] at hloose
      cases hloose
  · rintro ⟨hwritable, ⟨kv, hkv, hname⟩, hloose⟩
    apply read_update_of_writable row htable hkey hwritable
    · exact List.ne_nil_of_mem (row.mem_others.mpr ⟨hkv, hname⟩)
    · intro kv hkv
      obtain ⟨hmem, hne⟩ := row.mem_others.mp hkv
      rw [← Bool.not_eq_true]
      exact fun h => hne (hloose kv hmem h)

/-- No identifier is reserved. -/
def noneReserved (_ : List Char) : Bool := false

/-- A row whose values are safe. -/
def plainRow : Row noneReserved where
  fields := Fields.ofList [("unionid", .str "a"), ("nickname", .str "100\\%"), ("score", .num (-5))]
  identifiers := by decide +kernel
  values := by decide +kernel

/-- A row with a percent sign and a negative number is read back. -/
theorem builders_read_back_iff_sample :
    read noneReserved (getInsertSQL "op_user" plainRow.fields).toList = some (plainRow.insert "op_user") ∧
    read noneReserved (getUpdateSQL "op_user" (.str "unionid") plainRow.fields).toList =
      some (plainRow.update "op_user" "unionid") := by
  have h := builders_read_back_iff noneReserved "op_user" (by decide +kernel) plainRow
  exact ⟨h.1.mpr (by decide +kernel), (h.2 "unionid" (by decide +kernel)).mpr (by decide +kernel)⟩

/-- A row with a quote in a value. -/
def quoteRow : Row noneReserved where
  fields := Fields.ofList [("unionid", .str "a"), ("nickname", .str "O'Neil")]
  identifiers := by decide +kernel
  values := by decide +kernel

/-- A quote in a name ends the string, and neither text is a statement. -/
theorem quote_breaks_statement :
    read noneReserved (getInsertSQL "op_user" quoteRow.fields).toList = none ∧
    read noneReserved (getInsertSQL "op_user" quoteRow.fields).toList ≠ some (quoteRow.insert "op_user") ∧
    read noneReserved (getUpdateSQL "op_user" (.str "unionid") quoteRow.fields).toList = none ∧
    read noneReserved (getUpdateSQL "op_user" (.str "unionid") quoteRow.fields).toList ≠
      some (quoteRow.update "op_user" "unionid") := by
  decide +kernel

end SqlBuilders

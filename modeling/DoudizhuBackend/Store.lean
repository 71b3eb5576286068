/-
# The stores and services behind the request handlers

What the handlers of `html/v0` talk to, one command at a time:

* SSDB (`html/lib/SSDB.php`, commands as in `ssdb-master/src`): hashes, plain keys and
  queues.  `hset` refuses an empty key and a key of more than `SSDB_KEY_LEN_MAX = 255`
  bytes (`t_hash.cpp`); the handlers ignore that refusal.
* MySQL: `INSERT` into the tables `op_*` and `UPDATE op_user ... WHERE unionid = ...`.
* the outside services: Apple's `verifyReceipt`, WeChat's `orderquery`, the back office
  pages under `$api_url_base`, and `rand`.

`World` collects everything the handlers do not decide: the answers of the services
(`verifyReceipt` and `orderquery` are functions of the receipt and the order number, the
others may answer differently each time), whether a MySQL statement succeeds, and `rand`.
Given a world, `exec` is the meaning of a single command.

The clock is an argument of the handlers; `Calendar` gives `date()` in the zone
`Asia/Shanghai` that `GameData.php` sets.
-/
import DoudizhuBackend.CommandProgram
import DoudizhuBackend.PhpArray
import Mathlib.Logic.Function.Basic

open Php

/-! ## The calendar -/

namespace Calendar

/-- The calendar day of a Unix time in `Asia/Shanghai` (UTC+8), counted from
1970-01-01. -/
def day (now : ℕ) : ℕ := (now + 8 * 3600) / 86400

/-- Year, month and day of the month of a calendar day. -/
def civil (day : ℕ) : ℕ × ℕ × ℕ :=
  let z := day + 719468
  let era := z / 146097
  let doe := z % 146097
  let yoe := (doe - doe / 1460 + doe / 36524 - doe / 146096) / 365
  let doy := doe - (365 * yoe + yoe / 4 - yoe / 100)
  let mp := (5 * doy + 2) / 153
  let d := doy - (153 * mp + 2) / 5 + 1
  let m := if mp < 10 then mp + 3 else mp - 9
  (yoe + era * 400 + (if m ≤ 2 then 1 else 0), m, d)

/-- A number with two digits at least. -/
def pad2 (n : ℕ) : String := if n < 10 then "0" ++ toString n else toString n

/-- The text of a calendar day, as `date('Y-m-d')` prints it. -/
def dateText (day : ℕ) : String :=
  let (y, m, d) := civil day
  toString y ++ "-" ++ pad2 m ++ "-" ++ pad2 d

/-- `date('Y-m-d')`. -/
def date (now : ℕ) : String := dateText (day now)

/-- `date('Y-m-d G:i:s')`. -/
def dateTime (now : ℕ) : String :=
  let t := (now + 8 * 3600) % 86400
  date now ++ " " ++ toString (t / 3600) ++ ":" ++ pad2 (t / 60 % 60) ++ ":" ++ pad2 (t % 60)

/-- Later times are on later days. -/
theorem day_mono {t t' : ℕ} (h : t ≤ t') : day t ≤ day t' :=
  Nat.div_le_div_right (by omega)

end Calendar

/-! ## Contents of the stores -/

/-- The SSDB hashes the handlers use. -/
inductive HashName where
  | user
  | userno2unionid
  | appstoreOrderidSet
  | wexinPaySet
  | wexinOutTradeNoSet
  | login (date : String)
  deriving DecidableEq, Repr

/-- What a hash holds under a key.  A user record is kept as JSON text: `none` is the empty
text that is stored when `json_encode` fails. -/
@[reducible] def HashName.Val : HashName → Type
  | .user => Option JsonObject
  | .userno2unionid => String
  | .appstoreOrderidSet => Value
  | .wexinPaySet => Fields
  | .wexinOutTradeNoSet => ℤ
  | .login _ => Value

/-- The MySQL tables. -/
inductive Table where
  | opUser
  | opRechargeRecord
  | opGetRedpackRecord
  | opWexinPayRecord
  | opScoreLog
  deriving DecidableEq, Repr

/-- One line of the history of a room result: the short name and the score. -/
structure HistoryEntry where
  n : Value
  s : Value

/-- The room result a game server sends. -/
structure RoomResult where
  history : List HistoryEntry
  coinType : Value

/-- An item of an SSDB queue: a room result or an exchange record with its time, or a
notice text. -/
inductive Item where
  | roomResult (r : RoomResult) (t : String)
  | exchange (m c : Value) (t : String)
  | notice (text : Value)

/-- `hset` accepts the key: not empty and at most `SSDB_KEY_LEN_MAX` bytes. -/
def storableKey (k : String) : Prop := k ≠ "" ∧ k.utf8ByteSize ≤ 255

instance (k : String) : Decidable (storableKey k) := by unfold storableKey; infer_instance

/-- A character takes at most four bytes. -/
theorem String.utf8ByteSize_ofList_le (cs : List Char) :
    (String.ofList cs).utf8ByteSize ≤ 4 * cs.length := by
  induction cs with
  | nil => simp
  | cons c cs ih =>
      have hc := Char.utf8Size_le_four c
      rw [String.ofList_cons, String.utf8ByteSize_append, String.utf8ByteSize_singleton,
        List.length_cons]
      omega

/-- The contents of SSDB and MySQL.  Hashes only have keys that `hset` accepts.  The plain
keys that hold JSON text are `kvJson`, the others `kv`.  `tick` numbers the calls whose
answer is not a function of their arguments. -/
structure Store where
  hash : (h : HashName) → AList fun _ : String => h.Val
  storable : ∀ h k, k ∈ hash h → storableKey k
  kv : AList fun _ : String => Value
  kvJson : AList fun _ : String => Option JsonObject
  queue : String → List Item
  table : Table → List Fields
  tick : ℕ

/-- The stores before the first request. -/
def Store.empty : Store where
  hash := fun _ => ∅
  storable := fun _ k hk => absurd hk (AList.notMem_empty k)
  kv := ∅
  kvJson := ∅
  queue := fun _ => []
  table := fun _ => []
  tick := 0

/-! ## Commands -/

/-- What Apple answers to `verifyReceipt`: `status` and the fields of `receipt`. -/
structure AppleReply where
  status : Value
  bid : Value
  transaction_id : Value
  product_id : Value

/-- What WeChat answers to `orderquery`: the texts of the elements that are there. -/
structure WeixinReply where
  return_code : Option String
  result_code : Option String
  cash_fee : Option String

/-- The text of an XML element as a value; a missing element is `null`. -/
def xmlValue (text : Option String) : Value := text.elim .null .str

/-- What the back office answers to `redeemcode`. -/
structure RedeemReply where
  errno : Value
  redeemCode : Value

/-- The commands the handlers issue. -/
inductive Cmd where
  | hget (h : HashName) (key : String)
  | hset (h : HashName) (key : String) (val : h.Val)
  | hsize (h : HashName)
  | get (key : String)
  | set (key : String) (val : Value)
  | getJson (key : String)
  | setJson (key : String) (val : Option JsonObject)
  | existsKey (key : String)
  | incr (key : String) (val : Value)
  | qsize (name : String)
  | qpopBack (name : String)
  | qpushFront (name : String) (item : Item)
  | qrange (name : String) (offset limit : ℕ)
  | insert (t : Table) (row : Fields)
  | updateOpUser (data : Fields)
  | rand (lo hi : ℕ)
  | verifyReceipt (receipt : Value)
  | orderquery (outTradeNo : Value)
  | redeemcode (unionid amount : Value)
  | sitePage (route : String) (args : List Value)

/-- The answer to a command. -/
@[reducible] def Cmd.Resp : Cmd → Type
  | .hget h _ => Option h.Val
  | .hset _ _ _ => Unit
  | .hsize _ => ℕ
  | .get _ => Value
  | .set _ _ => Unit
  | .getJson _ => Option JsonObject
  | .setJson _ _ => Unit
  | .existsKey _ => Bool
  | .incr _ _ => Unit
  | .qsize _ => ℕ
  | .qpopBack _ => Unit
  | .qpushFront _ _ => Unit
  | .qrange _ _ _ => List Item
  | .insert _ _ => Bool
  | .updateOpUser _ => Bool
  | .rand _ _ => ℕ
  | .verifyReceipt _ => AppleReply
  | .orderquery _ => WeixinReply
  | .redeemcode _ _ => RedeemReply
  | .sitePage _ _ => Unit

/-- A request handler, or a part of one. -/
abbrev Handler (α : Type) := Prog Cmd Cmd.Resp α

/-- Issue one command and return its answer. -/
abbrev issue (c : Cmd) : Handler c.Resp := Prog.call c

/-- An `if` without `else`. -/
def Handler.when (b : Bool) (p : Handler Unit) : Handler Unit := if b then p else pure ()

/-- Everything the handlers do not decide. -/
structure World where
  verifyReceipt : Value → AppleReply
  orderquery : Value → WeixinReply
  redeemcode : ℕ → RedeemReply
  rand : ℕ → ℕ
  mysqlOk : ℕ → Bool

/-- A world in which no payment is known, every exchange code is granted and MySQL accepts
every statement. -/
def World.plain : World where
  verifyReceipt := fun _ => ⟨.num 21002, .null, .null, .null⟩
  orderquery := fun _ => ⟨some "SUCCESS", some "FAIL", none⟩
  redeemcode := fun _ => ⟨.num 1000, .str "code"⟩
  rand := fun _ => 0
  mysqlOk := fun _ => true

/-! ## The meaning of a command -/

namespace Store

/-- The hash `h` after `hset(h, key, val)`. -/
def hset (s : Store) (h : HashName) (key : String) (val : h.Val) : Store :=
  if hkey : storableKey key then
    { s with
      hash := Function.update s.hash h ((s.hash h).insert key val)
      storable := by
        intro h' k hk
        by_cases hh : h' = h
        · subst hh
          rw [Function.update_self, AList.mem_insert] at hk
          rcases hk with rfl | hk
          · exact hkey
          · exact s.storable h' k hk
        · rw [Function.update_of_ne hh] at hk
          exact s.storable h' k hk }
  else s

/-- The integer a stored text is as a whole, as `str_to_int64` reads it. -/
def intText (t : String) : Option ℤ :=
  let (neg, ds) := splitSign (t.toList.dropWhile isBlank)
  if (ds ≠ [] ∨ t = "") ∧ ds.all Char.isDigit then
    some (if neg then -(digitsVal 10 ds : ℤ) else digitsVal 10 ds)
  else none

/-- The 64-bit integer that `strtoll` makes of a number: the nearest one. -/
def clampInt64 (n : ℤ) : ℤ := max (-2 ^ 63) (min (2 ^ 63 - 1) n)

/-- The 64-bit integer that is left of a sum. -/
def wrapInt64 (n : ℤ) : ℤ := (n + 2 ^ 63) % 2 ^ 64 - 2 ^ 63

/-- SSDB's `incr`: the amount is read up to its first non-digit; it is stored if the key is
absent, added if the stored text is an integer, and refused otherwise. -/
def incr (s : Store) (key : String) (val : Value) : Store :=
  let amount : ℤ := clampInt64 (Value.str val.text).intval
  match s.kv.lookup key with
  | none => { s with kv := s.kv.insert key (.num amount) }
  | some old =>
      match intText old.text with
      | some n => { s with kv := s.kv.insert key (.num (wrapInt64 (clampInt64 n + amount) : ℤ)) }
      | none => s

/-- A text as `op_user` compares it: the table has a collation that does not tell upper from lower case.
This is about ASCII texts without blanks; the collation also drops accents and blanks at the end. -/
def foldCase (t : String) : String := String.ofList (t.toList.map Char.toLower)

/-- A row of `op_user` under `UPDATE op_user SET ... WHERE unionid = ...`: the other fields
of the data are set if the row has the data's `unionid`, up to case.  Rows keep the values as they are
written; what the types of the columns make of them is said where rows are read. -/
def updateRow (data row : Fields) : Fields :=
  if foldCase (row.get "unionid").text = foldCase (data.get "unionid").text then
    row.merge (data.without "unionid")
  else row

/-- `UPDATE op_user ... WHERE unionid = ...`. -/
def updateOpUser (s : Store) (data : Fields) : Store :=
  { s with table := Function.update s.table .opUser ((s.table .opUser).map (updateRow data)) }

/-- One more row in a table, with the values as they are written. -/
def insertRow (s : Store) (t : Table) (row : Fields) : Store :=
  { s with table := Function.update s.table t (s.table t ++ [row]) }

/-- The store with one queue changed. -/
def setQueue (s : Store) (name : String) (items : List Item) : Store :=
  { s with queue := Function.update s.queue name items }

/-- One more call of `rand()` or of MySQL has been made. -/
def nextTick (s : Store) : Store := { s with tick := s.tick + 1 }

end Store

/-- The answer to a command and the stores after it. -/
def exec (w : World) : (c : Cmd) → Store → c.Resp × Store
  | .hget h key, s => ((s.hash h).lookup key, s)
  | .hset h key val, s => ((), s.hset h key val)
  | .hsize h, s => ((s.hash h).entries.length, s)
  | .get key, s => ((s.kv.lookup key).getD .null, s)
  | .set key val, s => ((), { s with kv := s.kv.insert key val })
  | .getJson key, s => ((s.kvJson.lookup key).join, s)
  | .setJson key val, s => ((), { s with kvJson := s.kvJson.insert key val })
  | .existsKey key, s => ((s.kv.lookup key).isSome, s)
  | .incr key val, s => ((), s.incr key val)
  | .qsize name, s => ((s.queue name).length, s)
  | .qpopBack name, s => ((), s.setQueue name (s.queue name).dropLast)
  | .qpushFront name item, s => ((), s.setQueue name (item :: s.queue name))
  | .qrange name offset limit, s => (((s.queue name).drop offset).take limit, s)
  | .insert t row, s =>
      (w.mysqlOk s.tick, if w.mysqlOk s.tick then (s.insertRow t row).nextTick else s.nextTick)
  | .updateOpUser data, s =>
      (w.mysqlOk s.tick, if w.mysqlOk s.tick then (s.updateOpUser data).nextTick else s.nextTick)
  | .rand lo hi, s => (lo + w.rand s.tick % (hi - lo + 1), s.nextTick)
  | .verifyReceipt receipt, s => (w.verifyReceipt receipt, s)
  | .orderquery outTradeNo, s => (w.orderquery outTradeNo, s)
  | .redeemcode _ _, s => (w.redeemcode s.tick, s.nextTick)
  | .sitePage _ _, s => ((), s)

/-! ## Frames: what a command leaves alone -/

/-- The parts of the stores a command can write. -/
inductive StorePart where
  | hash (h : HashName)
  | kv
  | kvJson
  | queues
  | table (t : Table)
  deriving DecidableEq

/-- The part of the stores a command writes, if any. -/
def Cmd.part : Cmd → Option StorePart
  | .hset h _ _ => some (.hash h)
  | .set _ _ => some .kv
  | .setJson _ _ => some .kvJson
  | .incr _ _ => some .kv
  | .qpopBack _ => some .queues
  | .qpushFront _ _ => some .queues
  | .insert t _ => some (.table t)
  | .updateOpUser _ => some (.table .opUser)
  | _ => none

section Frame

variable {w : World} {c : Cmd} {s : Store}

@[simp] theorem Store.nextTick_hash : s.nextTick.hash = s.hash := rfl

@[simp] theorem Store.nextTick_table : s.nextTick.table = s.table := rfl

@[simp] theorem Store.insertRow_hash (t : Table) (row : Fields) :
    (s.insertRow t row).hash = s.hash := rfl

@[simp] theorem Store.updateOpUser_hash (data : Fields) :
    (s.updateOpUser data).hash = s.hash := rfl

/-- Counters keep the hashes. -/
theorem Store.incr_hash (key : String) (val : Value) : (s.incr key val).hash = s.hash := by
  unfold Store.incr
  cases s.kv.lookup key with
  | none => rfl
  | some old => dsimp only; split <;> rfl

/-- Counters keep the tables. -/
theorem Store.incr_table (key : String) (val : Value) : (s.incr key val).table = s.table := by
  unfold Store.incr
  cases s.kv.lookup key with
  | none => rfl
  | some old => dsimp only; split <;> rfl

/-- `hset` on one hash leaves the other hashes alone. -/
theorem Store.hset_hash_of_ne {h h' : HashName} {key : String} {val : h.Val} (hne : h' ≠ h) :
    (s.hset h key val).hash h' = s.hash h' := by
  unfold Store.hset
  split
  · exact Function.update_of_ne hne _ _
  · rfl

@[simp] theorem Store.hset_table {h : HashName} {key : String} {val : h.Val} :
    (s.hset h key val).table = s.table := by
  unfold Store.hset
  split <;> rfl

/-- A command that does not write the hash `h` leaves it alone. -/
theorem exec_hash_of_part {h : HashName} (hc : c.part ≠ some (.hash h)) :
    (exec w c s).2.hash h = s.hash h := by
  cases c with
  | hset h' key val =>
      have hne : h ≠ h' := by rintro rfl; exact hc rfl
      exact Store.hset_hash_of_ne hne
  | incr key val => exact congrFun (Store.incr_hash key val) h
  | insert t row => simp only [exec]; split <;> rfl
  | updateOpUser data => simp only [exec]; split <;> rfl
  | _ => rfl

/-- A command that does not write the table `t` leaves it alone. -/
theorem exec_table_of_part {t : Table} (hc : c.part ≠ some (.table t)) :
    (exec w c s).2.table t = s.table t := by
  cases c with
  | hset h key val => exact congrFun Store.hset_table t
  | incr key val => exact congrFun (Store.incr_table key val) t
  | insert t' row =>
      have hne : t ≠ t' := by rintro rfl; exact hc rfl
      simp only [exec]
      split
      · exact Function.update_of_ne hne _ _
      · rfl
  | updateOpUser data =>
      have hne : t ≠ .opUser := by rintro rfl; exact hc rfl
      simp only [exec]
      split
      · exact Function.update_of_ne hne _ _
      · rfl
  | _ => rfl

/-- A command that writes no plain key leaves them alone. -/
theorem exec_kv_of_part (hc : c.part ≠ some .kv) : (exec w c s).2.kv = s.kv := by
  cases c with
  | hset h key val => simp only [exec, Store.hset]; split <;> rfl
  | set key val => exact absurd rfl hc
  | incr key val => exact absurd rfl hc
  | insert t row => simp only [exec]; split <;> rfl
  | updateOpUser data => simp only [exec]; split <;> rfl
  | _ => rfl

/-- A command that writes no plain key with JSON text leaves them alone. -/
theorem exec_kvJson_of_part (hc : c.part ≠ some .kvJson) : (exec w c s).2.kvJson = s.kvJson := by
  cases c with
  | hset h key val => simp only [exec, Store.hset]; split <;> rfl
  | setJson key val => exact absurd rfl hc
  | incr key val =>
      simp only [exec, Store.incr]
      cases s.kv.lookup key with
      | none => rfl
      | some old => dsimp only; split <;> rfl
  | insert t row => simp only [exec]; split <;> rfl
  | updateOpUser data => simp only [exec]; split <;> rfl
  | _ => rfl

/-- A command that writes no queue leaves them alone. -/
theorem exec_queue_of_part (hc : c.part ≠ some .queues) : (exec w c s).2.queue = s.queue := by
  cases c with
  | hset h key val => simp only [exec, Store.hset]; split <;> rfl
  | incr key val =>
      simp only [exec, Store.incr]
      cases s.kv.lookup key with
      | none => rfl
      | some old => dsimp only; split <;> rfl
  | qpopBack name => exact absurd rfl hc
  | qpushFront name item => exact absurd rfl hc
  | insert t row => simp only [exec]; split <;> rfl
  | updateOpUser data => simp only [exec]; split <;> rfl
  | _ => rfl

end Frame

/-! ## Reading a hash after `hset` -/

section Hset

variable {s : Store} {h : HashName} {k k' : String} {v : h.Val}

/-- The hash after a write. -/
theorem Store.hset_hash_self (hk : storableKey k) :
    (s.hset h k v).hash h = (s.hash h).insert k v := by
  simp [Store.hset, hk]

/-- A write depends on the hashes only. -/
theorem Store.hset_hash_congr {s' : Store} (hs : s'.hash = s.hash) :
    (s'.hset h k v).hash = (s.hset h k v).hash := by
  unfold Store.hset
  split
  · simp only [hs]
  · exact hs

/-- What is written is read back. -/
theorem Store.lookup_hset_self (hk : storableKey k) :
    ((s.hset h k v).hash h).lookup k = some v := by
  simp [Store.hset, hk]

/-- And the other keys keep their values. -/
theorem Store.lookup_hset_of_ne (hne : k' ≠ k) :
    ((s.hset h k v).hash h).lookup k' = (s.hash h).lookup k' := by
  unfold Store.hset
  split
  · simp [AList.lookup_insert_ne hne]
  · rfl

/-- A key that `hset` refuses is not there. -/
theorem Store.lookup_of_not_storable (hk : ¬ storableKey k) : (s.hash h).lookup k = none :=
  AList.lookup_eq_none.mpr fun hmem => hk (s.storable h k hmem)

/-- A key that SSDB refuses is not written. -/
theorem Store.hset_of_not_storable (hk : ¬ storableKey k) : s.hset h k v = s := by
  simp [Store.hset, hk]

end Hset

/-- A handler writes only the parts of the stores that satisfy `Q`. -/
def Handler.Writes (Q : StorePart → Prop) {α : Type} (p : Handler α) : Prop :=
  p.All (fun c => ∀ q, c.part = some q → Q q) fun _ => True

namespace Handler

variable {Q : StorePart → Prop} {α β : Type} {p : Handler α} {w : World}

theorem Writes.ret (a : α) : Handler.Writes Q (Prog.ret a : Handler α) := trivial

theorem Writes.issue {c : Cmd} (h : ∀ q, c.part = some q → Q q) :
    Handler.Writes Q (issue c) := ⟨h, fun _ => trivial⟩

/-- What a handler writes may be split at a command. -/
theorem Writes.bind {f : α → Handler β} (hp : Handler.Writes Q p)
    (hf : ∀ a, Handler.Writes Q (f a)) : Handler.Writes Q (p >>= f) :=
  Prog.All.bind hp fun a _ => hf a

theorem Writes.ite {b : Prop} [Decidable b] {q : Handler α} (hp : Handler.Writes Q p)
    (hq : Handler.Writes Q q) : Handler.Writes Q (if b then p else q) :=
  Prog.All.ite (fun _ => hp) fun _ => hq

theorem Writes.when {b : Bool} {q : Handler Unit} (hq : Handler.Writes Q q) :
    Handler.Writes Q (Handler.when b q) :=
  Writes.ite hq (Writes.ret ())

/-- What a handler writes may be weakened. -/
theorem Writes.mono {Q' : StorePart → Prop} (hp : Handler.Writes Q p) (h : ∀ q, Q q → Q' q) :
    Handler.Writes Q' p :=
  Prog.All.mono hp (fun _ hc q hq => h q (hc q hq)) fun _ hr => hr

/-- None of the commands of a handler writes a part outside of `Q`. -/
theorem Writes.avoids (hp : Handler.Writes Q p) {q : StorePart} (hq : ¬ Q q) :
    p.All (fun c => c.part ≠ some q) fun _ => True :=
  Prog.All.mono hp (fun _ hc hpart => hq (hc _ hpart)) fun _ h => h

/-- A hash a handler does not write is the same after it. -/
theorem Writes.run_hash (hp : Handler.Writes Q p) {h : HashName} (hh : ¬ Q (.hash h))
    (s : Store) : (p.run (exec w) s).2.hash h = s.hash h :=
  Prog.All.run_view (fun s => s.hash h) hp
    (fun _ _ hc => exec_hash_of_part fun hpart => hh (hc _ hpart)) s

/-- A table a handler does not write is the same after it. -/
theorem Writes.run_table (hp : Handler.Writes Q p) {t : Table} (ht : ¬ Q (.table t))
    (s : Store) : (p.run (exec w) s).2.table t = s.table t :=
  Prog.All.run_view (fun s => s.table t) hp
    (fun _ _ hc => exec_table_of_part fun hpart => ht (hc _ hpart)) s

/-- Plain keys that a handler does not write are the same after it. -/
theorem Writes.run_kv (hp : Handler.Writes Q p) (hkv : ¬ Q .kv) (s : Store) :
    (p.run (exec w) s).2.kv = s.kv :=
  Prog.All.run_view (fun s => s.kv) hp
    (fun _ _ hc => exec_kv_of_part fun hpart => hkv (hc _ hpart)) s

/-- Plain keys with JSON text that a handler does not write are the same after it. -/
theorem Writes.run_kvJson (hp : Handler.Writes Q p) (hkv : ¬ Q .kvJson) (s : Store) :
    (p.run (exec w) s).2.kvJson = s.kvJson :=
  Prog.All.run_view (fun s => s.kvJson) hp
    (fun _ _ hc => exec_kvJson_of_part fun hpart => hkv (hc _ hpart)) s

/-- Queues that a handler does not write are the same after it. -/
theorem Writes.run_queue (hp : Handler.Writes Q p) (hq : ¬ Q .queues) (s : Store) :
    (p.run (exec w) s).2.queue = s.queue :=
  Prog.All.run_view (fun s => s.queue) hp
    (fun _ _ hc => exec_queue_of_part fun hpart => hq (hc _ hpart)) s

end Handler

/-
# The rows of `op_user` mirror the records

Every change of a user goes to SSDB as the whole record and to MySQL as the changed fields only.
So the two stores agree as long as a handler changes a record by what it tells MySQL, and as long
as the copy of the record that it writes back is not older than what MySQL knows.

`stores_agree` says that they agree in every run whose requests keep to this, in the values that the
columns of the table can hold.  Two blocks do not:
the roll-over in `service_updateUser.php` tells MySQL a `lastLoginTime` and writes back a copy
without it (`stale_lastLoginTime`), and `addUser_reward` changes `rechargeVal` without telling
MySQL.
-/
import DoudizhuBackend.UserRequests

open Php GameData

namespace UserStores

/-! ## Columns -/

/-- The columns of `user.mysql` of the type `int unsigned`. -/
def intColumns : List String := ["sex", "roomCardNum", "score", "win", "lose", "level"]

/-- The columns of `user.mysql` of the type `varchar(32)`. -/
def textColumns : List String := ["unionid", "nickname", "headimgurl", "city"]

/-- What a column of `op_user` gives back for a value that was written into it: a number from 0 to
`2^32 - 1`, or the first 32 characters of the text, up to one that needs four bytes.  The columns that
`user.mysql` does not have are taken to hold every number and every text. -/
def columnValue (f : String) (v : Value) : Value :=
  if f ∈ intColumns then .num (max 0 (min (2 ^ 32 - 1) ⌊v.toNum + 1 / 2⌋))
  else if f ∈ textColumns then
    .str (String.ofList ((v.text.toList.takeWhile fun c => c.toNat < 0x10000).take 32))
  else match v with
    | .null | .bool _ => .str v.text
    | v => v

/-- The column holds the value. -/
def Holds (f : String) (v : Value) : Prop := columnValue f v = v

instance (f : String) (v : Value) : Decidable (Holds f v) := inferInstanceAs (Decidable (_ = _))

/-- The column of the `unionid` shows it as it was written. -/
theorem columnValue_unionid {v : Value} (h : RowName v.text) : (columnValue "unionid" v).text = v.text := by
  have hall : (v.text.toList.takeWhile fun c => c.toNat < 0x10000) = v.text.toList := by
    refine List.takeWhile_eq_self_iff.mpr fun c hc => decide_eq_true ?_
    have := (h.2 c hc).2
    omega
  unfold columnValue
  rw [if_neg (by decide), if_pos (by decide), hall, List.take_of_length_le, String.ofList_toList]
  · rfl
  · rw [String.length_toList]
    exact h.1

/-- A column that is not typed keeps the number that a value counts for. -/
theorem toNum_columnValue {f : String} (hint : f ∉ intColumns) (htext : f ∉ textColumns) (v : Value) :
    (columnValue f v).toNum = v.toNum := by
  unfold columnValue
  rw [if_neg hint, if_neg htext]
  cases v with
  | null => decide +kernel
  | bool b => cases b <;> decide +kernel
  | num q => rfl
  | str t => rfl
  | bytes b => rfl

/-! ## Rows and records -/

/-- What the columns of a row show of a record: the `unionid` as a text, `totalGetRedPackVal` as a number
(a new row has `0`, a new record does not have the field), and all other values that the columns hold. -/
structure Shows (o row : Fields) : Prop where
  unionid : (columnValue "unionid" (row.get "unionid")).text = (o.get "unionid").text
  get : ∀ f, f ≠ "unionid" → f ≠ "totalGetRedPackVal" → Holds f (o.get f) →
    columnValue f (row.get f) = o.get f
  total : (columnValue "totalGetRedPackVal" (row.get "totalGetRedPackVal")).toNum =
    (o.get "totalGetRedPackVal").toNum

/-- Every record has a row, and all its rows show the record. -/
structure StoresAgree (s : Store) : Prop where
  row : ∀ k o, s.record k = some o → ∃ row ∈ s.table .opUser, userKey (row.get "unionid") = k
  shows : ∀ k o, s.record k = some o → ∀ row ∈ s.table .opUser, userKey (row.get "unionid") = k →
    Shows o.fields row

/-- A field of the row of a stored user. -/
theorem StoresAgree.get {s : Store} (h : StoresAgree s) {f : String} (hf : f ≠ "unionid")
    (htotal : f ≠ "totalGetRedPackVal") :
    ∀ row ∈ s.table .opUser, (s.record (userKey (row.get "unionid"))).isSome = true →
      Holds f ((s.fieldsAt (userKey (row.get "unionid"))).get f) →
        columnValue f (row.get f) = (s.fieldsAt (userKey (row.get "unionid"))).get f := by
  intro row hrow hsome
  obtain ⟨o, ho⟩ := Option.isSome_iff_exists.mp hsome
  rw [Store.fieldsAt_of_record ho]
  exact (h.shows _ o ho row hrow rfl).get f hf htotal

theorem Agrees.shows {o row : Fields} (h : Agrees o row)
    (hunionid : (row.get "unionid").text = (o.get "unionid").text)
    (hname : RowName (row.get "unionid").text) : Shows o row where
  unionid := (columnValue_unionid hname).trans hunionid
  get := fun f hf htotal hholds => by rw [h.get f hf htotal, hholds]
  total := (toNum_columnValue (by decide) (by decide) _).trans h.total

end UserStores

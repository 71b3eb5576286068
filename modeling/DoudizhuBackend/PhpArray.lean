/-
# PHP arrays with string keys

`Fields` is a PHP array with string keys and scalar values: a request's message, a user
record, a row of a table.  Messages with arrays among their values are left out (`SSDB.php` puts
the elements of an array one by one among the arguments of a command).  Keys are unique, which the
association lists of Mathlib carry as a proof (`AList`).  A missing key reads as `null`, and `isset`
does not tell a missing key from a key that holds `null`.

`merge` is the loop `foreach ($data as $key => $value) $user[$key] = $value`.

`JsonObject` is an array that JSON text can hold: none of its strings is invalid UTF-8.
`jsonEncode` is what `json_decode` gives back after `json_encode`: the same array, or
nothing if it is not such an array.
-/
import DoudizhuBackend.PhpValue
import Mathlib.Data.List.AList

namespace Php

/-- A PHP array with string keys and scalar values. -/
abbrev Fields := AList fun _ : String => Value

namespace Fields

/-- The array literal `array(k => v, ...)`. -/
def ofList (l : List (String × Value)) : Fields :=
  (l.map fun kv => (⟨kv.1, kv.2⟩ : Sigma fun _ : String => Value)).toAList

/-- `$u[$k]`, which is `null` for a missing key. -/
def get (u : Fields) (k : String) : Value :=
  (u.lookup k).getD .null

/-- `$u[$k] = $v`. -/
def set (u : Fields) (k : String) (v : Value) : Fields :=
  u.insert k v

/-- `isset($u[$k])`. -/
def isset (u : Fields) (k : String) : Bool :=
  u.get k ≠ .null

/-- `$u[$k]` if it is set, else a default. -/
def getD (u : Fields) (k : String) (default : Value) : Value :=
  if u.isset k then u.get k else default

/-- `if (isset($u[$k]) == false) $u[$k] = default`. -/
def setDefault (u : Fields) (k : String) (default : Value) : Fields :=
  if u.isset k then u else u.set k default

/-- `empty($u)` of an array. -/
def isEmpty (u : Fields) : Bool :=
  u.entries.isEmpty

/-- `foreach ($data as $key => $value) $user[$key] = $value`. -/
def merge (user data : Fields) : Fields :=
  data.entries.foldl (fun u kv => u.set kv.1 kv.2) user

/-- The array without the key `k`. -/
def without (u : Fields) (k : String) : Fields :=
  u.erase k

/-- The fields count for plain numbers. -/
def Counts (u : Fields) (names : List String) : Prop := ∀ f ∈ names, IsPlain (u.get f).toNum

instance (u : Fields) (names : List String) : Decidable (u.Counts names) :=
  inferInstanceAs (Decidable (∀ f ∈ names, _))

/-! ## Reading after writing -/

section Get

variable {u d : Fields} {f k : String} {v : Value}

@[simp] theorem get_empty (f : String) : get ∅ f = .null := rfl

@[simp] theorem get_set_self : (u.set k v).get k = v := by
  simp [get, set]

/-- A write keeps the other keys. -/
theorem get_set_of_ne (h : f ≠ k) : (u.set k v).get f = u.get f := by
  simp [get, set, AList.lookup_insert_ne h]

/-- Reading after a write. -/
theorem get_set : (u.set k v).get f = if f = k then v else u.get f := by
  split
  · subst f; exact get_set_self
  · exact get_set_of_ne ‹_›

/-- Reading after a default has been filled in. -/
theorem get_setDefault : (u.setDefault k v).get f = if f = k then u.getD k v else u.get f := by
  unfold setDefault getD
  split
  · split
    · subst f; rfl
    · rfl
  · exact get_set

/-- A key that is not there reads as `null`. -/
theorem get_eq_null_of_notMem (h : f ∉ u) : u.get f = .null := by
  simp [get, AList.lookup_eq_none.mpr h]

@[simp] theorem ofList_nil : ofList [] = ∅ := rfl

/-- The later of two equal keys in a list decides. -/
theorem ofList_cons (kv : String × Value) (l : List (String × Value)) :
    ofList (kv :: l) = (ofList l).set kv.1 kv.2 := by
  simp [ofList, set, AList.toAList_cons]

/-- The first of an array literal's entries decides, the others are looked up in the
rest. -/
theorem get_ofList_cons (kv : String × Value) (l : List (String × Value)) :
    (ofList (kv :: l)).get f = if f = kv.1 then kv.2 else (ofList l).get f := by
  rw [ofList_cons, get_set]

/-- The keys after a write. -/
theorem mem_set : f ∈ u.set k v ↔ f = k ∨ f ∈ u :=
  AList.mem_insert u

/-- The keys of a list. -/
theorem mem_ofList {l : List (String × Value)} : f ∈ ofList l ↔ f ∈ l.map Prod.fst := by
  induction l with
  | nil => simp
  | cons kv l ih => rw [ofList_cons, mem_set, ih, List.map_cons, List.mem_cons]

/-- Entries for other keys do not change what is read at `f`. -/
theorem get_foldl_set_of_notMem {l : List (Sigma fun _ : String => Value)} (h : f ∉ l.keys) :
    (l.foldl (fun u kv => u.set kv.1 kv.2) u).get f = u.get f := by
  induction l generalizing u with
  | nil => rfl
  | cons kv l ih =>
      rw [List.keys_cons, List.mem_cons, not_or] at h
      rw [List.foldl_cons, ih h.2, get_set_of_ne h.1]

/-- Keys are unique, so after its own entry no later one touches `f`. -/
theorem get_foldl_set_of_mem {l : List (Sigma fun _ : String => Value)} (hl : l.NodupKeys)
    (h : f ∈ l.keys) :
    (l.foldl (fun u kv => u.set kv.1 kv.2) u).get f = (l.dlookup f).getD .null := by
  induction l generalizing u with
  | nil => simp at h
  | cons kv l ih =>
      rw [List.nodupKeys_cons] at hl
      rw [List.foldl_cons]
      by_cases hkv : f = kv.1
      · rw [get_foldl_set_of_notMem (hkv ▸ hl.1), hkv, get_set_self]
        obtain ⟨k, v⟩ := kv
        simp [List.dlookup_cons_eq]
      · rw [List.keys_cons, List.mem_cons] at h
        rw [ih hl.2 (h.resolve_left hkv), List.dlookup_cons_ne _ _ hkv]

/-- A key the data does not name keeps its value. -/
theorem get_merge_of_notMem (h : f ∉ d) : (u.merge d).get f = u.get f :=
  get_foldl_set_of_notMem h

/-- A key the data names gets the data's value. -/
theorem get_merge_of_mem (h : f ∈ d) : (u.merge d).get f = d.get f :=
  get_foldl_set_of_mem d.nodupKeys h

/-- Reading after a merge: the second array decides. -/
theorem get_merge : (u.merge d).get f = if f ∈ d then d.get f else u.get f := by
  split
  · exact get_merge_of_mem ‹_›
  · exact get_merge_of_notMem ‹_›

/-- A removal keeps the other keys. -/
theorem get_without_of_ne (h : f ≠ k) : (u.without k).get f = u.get f := by
  simp [get, without, AList.lookup_erase_ne h]

/-- The keys after a removal. -/
theorem mem_without : f ∈ u.without k ↔ f ≠ k ∧ f ∈ u :=
  AList.mem_erase

/-- `isset` is false of `null` too. -/
theorem isset_eq_true : u.isset f = true ↔ u.get f ≠ .null := by
  simp [isset]

/-- A key with a value is there. -/
theorem mem_of_get_ne_null (h : u.get f ≠ .null) : f ∈ u := by
  by_contra hf
  exact h (get_eq_null_of_notMem hf)

end Get

/-! ## JSON -/

/-- `json_encode` accepts the value: it is not a string of invalid UTF-8 (nor an infinite number, which no
value is). -/
def encodable : Value → Bool
  | .bytes _ => false
  | _ => true

/-- The array has only values that `json_encode` accepts. -/
def Encodable (u : Fields) : Prop := ∀ f, encodable (u.get f) = true

/-- `json_encode` accepts all entries of the array. -/
def encodes (u : Fields) : Bool := u.entries.all fun kv => encodable kv.2

/-- The test on the entries decides whether `json_encode` succeeds. -/
theorem encodes_iff {u : Fields} : u.encodes = true ↔ u.Encodable := by
  rw [encodes, List.all_eq_true]
  constructor
  · intro h f
    cases hf : u.lookup f with
    | none => simp [get, hf, encodable]
    | some x =>
        have hx : ⟨f, x⟩ ∈ u.entries := AList.mem_lookup_iff.mp hf
        simpa [get, hf] using h _ hx
  · rintro h ⟨f, x⟩ hx
    have hf : u.lookup f = some x := AList.mem_lookup_iff.mpr hx
    simpa [get, hf] using h f

/-- A merge of two arrays that can be encoded can be encoded. -/
theorem Encodable.merge {u d : Fields} (hu : u.Encodable) (hd : d.Encodable) :
    (u.merge d).Encodable := by
  intro f
  rw [get_merge]
  split
  · exact hd f
  · exact hu f

/-- So can an array with one more value. -/
theorem Encodable.set {u : Fields} {k : String} {v : Value} (hu : u.Encodable)
    (hv : encodable v = true) : (u.set k v).Encodable := by
  intro f
  rw [get_set]
  split
  · exact hv
  · exact hu f

/-- And one with a default filled in. -/
theorem Encodable.setDefault {u : Fields} {k : String} {v : Value} (hu : u.Encodable)
    (hv : encodable v = true) : (u.setDefault k v).Encodable := by
  unfold Fields.setDefault
  split
  · exact hu
  · exact hu.set hv

/-- The empty array can be encoded. -/
theorem encodable_empty : Encodable ∅ := fun _ => rfl

/-- An array literal is accepted if all its values are. -/
theorem encodable_ofList {l : List (String × Value)}
    (h : ∀ kv ∈ l, encodable kv.2 = true) : (ofList l).Encodable := by
  induction l with
  | nil => exact encodable_empty
  | cons kv l ih =>
      rw [ofList_cons]
      have hl : (ofList l).Encodable := ih fun x hx => h x (List.mem_cons_of_mem kv hx)
      exact hl.set (h kv List.mem_cons_self)

end Fields

/-- An array that JSON text can hold. -/
structure JsonObject where
  fields : Fields
  encodable : fields.Encodable

namespace Fields

/-- What is read back after `json_encode`: the array itself, or nothing if a string in it
is not valid UTF-8. -/
def jsonEncode (u : Fields) : Option JsonObject :=
  if h : u.encodes = true then some ⟨u, encodes_iff.mp h⟩ else none

/-- `json_encode` of an array that can be encoded. -/
theorem jsonEncode_of_encodable {u : Fields} (h : u.Encodable) : u.jsonEncode = some ⟨u, h⟩ :=
  dif_pos (encodes_iff.mpr h)

/-- What has been encoded is read back. -/
theorem fields_of_jsonEncode {u : Fields} {o : JsonObject} (h : u.jsonEncode = some o) :
    o.fields = u := by
  unfold jsonEncode at h
  split at h
  · cases h; rfl
  · cases h

/-- `json_encode` of any other array fails. -/
theorem jsonEncode_of_not_encodable {u : Fields} (h : ¬ u.Encodable) : u.jsonEncode = none :=
  dif_neg fun hu => h (encodes_iff.mp hu)

end Fields

namespace JsonObject

/-- `$msg[$k]`. -/
def get (o : JsonObject) (k : String) : Value := o.fields.get k

/-- `isset($msg[$k])`. -/
def isset (o : JsonObject) (k : String) : Bool := o.fields.isset k

/-- `$msg[$k]` if it is set, else a default. -/
def getD (o : JsonObject) (k : String) (default : Value) : Value := o.fields.getD k default

theorem isset_eq_true {o : JsonObject} {k : String} : o.isset k = true ↔ o.get k ≠ .null :=
  Fields.isset_eq_true

theorem isset_eq_false {o : JsonObject} {k : String} : o.isset k = false ↔ o.get k = .null := by
  rw [← Bool.not_eq_true, isset_eq_true, ne_eq, not_not]

/-- The values of an object can be encoded. -/
theorem encodable_get (o : JsonObject) (k : String) : Fields.encodable (o.get k) = true :=
  o.encodable k

end JsonObject

end Php

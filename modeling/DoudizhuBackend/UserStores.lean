/-
# User records, user numbers and rows of `op_user`

A registered user is stored three times: the record in the hash `user`, the entry of the number in
`userno2unionid`, and the row of `op_user`.  This file is about the invariant `Sound` of the
three:

* every record is under the key of its own `unionid`, has a number, and the entry of the number is
  its `unionid`;
* records exist only for users that went through `addUser`;
* (if MySQL accepts every statement) the row agrees with the record.

`Sound.write` is the common step of all methods that change a record; the methods of `GameData` and
the parts of the stores that hold no users follow.  `UserRequests.lean` is about whole requests.
-/
import DoudizhuBackend.RequestEffects

open Php GameData

/-! ## Sizes and numbers -/

/-- An entry for a new key makes the list longer by one, an entry for a key that is there does
not. -/
theorem AList.length_insert {α : Type*} {β : α → Type*} [DecidableEq α] (l : AList β) (a : α)
    (b : β a) :
    (l.insert a b).entries.length =
      if a ∈ l then l.entries.length else l.entries.length + 1 := by
  rw [AList.entries_insert, List.length_cons]
  split
  · rename_i h
    obtain ⟨b', l1, l2, -, hl, hrest⟩ := List.exists_of_kerase (AList.mem_keys.mp h)
    rw [hrest, hl]
    simp only [List.length_append, List.length_cons]
    omega
  · rename_i h
    rw [List.kerase_of_notMem_keys (fun hk => h (AList.mem_keys.mpr hk))]

namespace UserStores

/-- A natural number is printed in decimal. -/
theorem text_natCast (n : ℕ) : (Value.num n).text = toString n := by
  rw [Value.text, numText, if_pos (Rat.den_natCast n), Rat.num_natCast]
  rfl

/-- Two numbers do not have one text. -/
theorem text_natCast_injective {m n : ℕ} (h : (Value.num m).text = (Value.num n).text) : m = n := by
  rw [text_natCast, text_natCast, Nat.toString_eq_ofList_toDigits,
    Nat.toString_eq_ofList_toDigits] at h
  have hdigits := congrArg String.toList h
  rw [String.toList_ofList, String.toList_ofList] at hdigits
  rw [← Nat.ofDigitChars_ten_toDigits (n := m), hdigits, Nat.ofDigitChars_ten_toDigits]

/-- Keys determine the text of the `unionid`. -/
theorem text_of_userKey {u v : Value} (h : userKey u = userKey v) : u.text = v.text := by
  have := congrArg String.toList h
  simpa [userKey, String.toList_append, String.toList_inj] using this

/-- A value that counts as false has one of two keys. -/
theorem userKey_of_toBool {u : Value} (h : u.toBool = false) :
    userKey u = "u_" ∨ userKey u = "u_0" := by
  cases u with
  | null => exact Or.inl rfl
  | bool b =>
      cases b with
      | false => exact Or.inl rfl
      | true => cases h
  | num q =>
      have hq : q = 0 := by simpa [Value.toBool] using h
      subst hq
      exact Or.inr (by decide +kernel)
  | str t =>
      have ht : t = "" ∨ t = "0" := by
        by_cases ht : t = ""
        · exact Or.inl ht
        · exact Or.inr (by simpa [Value.toBool, ht] using h)
      rcases ht with rfl | rfl
      · exact Or.inl rfl
      · exact Or.inr rfl
  | bytes b =>
      have hb : b = [] := by simpa [Value.toBool] using h
      subst hb
      exact Or.inl rfl

/-! ## The invariant -/

/-- The user has a record, if one can be stored under its key. -/
def Registered (s : Store) (u : Value) : Prop :=
  storableKey (userKey u) → (s.record (userKey u)).isSome = true

instance (s : Store) (u : Value) : Decidable (Registered s u) := by
  unfold Registered; infer_instance

/-- A record and a row have the same values.  `unionid` is compared by its key below; the sum of
the red packets starts with `0` in the row only. -/
structure Agrees (o row : Fields) : Prop where
  get : ∀ f, f ≠ "unionid" → f ≠ "totalGetRedPackVal" → row.get f = o.get f
  total : (row.get "totalGetRedPackVal").toNum = (o.get "totalGetRedPackVal").toNum

/-- A `unionid` that its column holds and compares but for the case: at most 32 ASCII characters, and no
blank among them. -/
def RowName (t : String) : Prop := t.length ≤ 32 ∧ ∀ c ∈ t.toList, ' ' < c ∧ c.toNat < 128

instance (t : String) : Decidable (RowName t) :=
  @instDecidableAnd _ _ _ (List.decidableBAll (fun c => ' ' < c ∧ c.toNat < 128) t.toList)

/-- A new user has a row of its own: the `unionid` does not count as false, its column holds it, and it
differs from those of the rows not only in case. -/
def Enrollable (s : Store) (u : Value) : Prop :=
  (userKey u ≠ "u_" ∧ userKey u ≠ "u_0") ∧ RowName u.text ∧
    ∀ row ∈ s.table .opUser, Store.foldCase (row.get "unionid").text = Store.foldCase u.text →
      (row.get "unionid").text = u.text

instance (s : Store) (u : Value) : Decidable (Enrollable s u) := by
  unfold Enrollable; infer_instance

/-- The rows of `op_user` agree with the records. -/
structure Mirror (s : Store) : Prop where
  named : ∀ k o, s.record k = some o → k ≠ "u_" ∧ k ≠ "u_0"
  row : ∀ k o, s.record k = some o → ∃ row ∈ s.table .opUser, userKey (row.get "unionid") = k
  agrees : ∀ row ∈ s.table .opUser, ∀ o, s.record (userKey (row.get "unionid")) = some o →
    Agrees o.fields row
  fresh : ∀ row ∈ s.table .opUser, Registered s (row.get "unionid")
  rowName : ∀ row ∈ s.table .opUser, RowName (row.get "unionid").text
  apart : ∀ row ∈ s.table .opUser, ∀ row' ∈ s.table .opUser,
    Store.foldCase (row.get "unionid").text = Store.foldCase (row'.get "unionid").text →
      (row.get "unionid").text = (row'.get "unionid").text

/-- The number `n` is given to the user of the record. -/
def HasNumber (s : Store) (o : JsonObject) (n : ℕ) : Prop :=
  (o.get "userno").text = (Value.num n).text ∧ n ≤ 100000 + (s.hash .user).entries.length ∧
    (s.hash .userno2unionid).lookup (Value.num n).text = some (o.get "unionid").text

/-- The records.  `vs` are the `unionid`s that went through `addUser`. -/
structure Users (vs : List String) (s : Store) : Prop where
  keyed : s.Keyed
  stored : ∀ k, k ∈ s.hash .user → (s.record k).isSome = true
  userno : ∀ k o, s.record k = some o → o.get "userno" ≠ .null
  mapped : ∀ n t, (s.hash .userno2unionid).lookup n = some t → Registered s (.str t)
  known : ∀ k, (s.record k).isSome = true → ∃ t ∈ vs, k = "u_" ++ t

/-- What is followed along a run besides the records. -/
inductive View where
  | users
  | numbers
  | rows

/-- What every request keeps. -/
structure Sound (view : View) (vs : List String) (s : Store) : Prop extends Users vs s where
  numbered : view = .numbers → ∀ k o, s.record k = some o → ∃ n, HasNumber s o n
  mirrored : view = .rows → Mirror s

section Sound

variable {view : View} {vs : List String} {s s' : Store} {w : World} {k : String}
  {o o' : JsonObject} {data user : Fields}

/-- The empty stores are sound. -/
theorem sound_empty : Sound view [] Store.empty where
  keyed := Store.empty_keyed
  stored := fun k hk => absurd hk (AList.notMem_empty k)
  userno := fun k o h => by cases h
  mapped := fun n t h => by cases h
  known := fun k h => by cases h
  numbered := fun _ k o h => by cases h
  mirrored := fun _ => by
    refine ⟨?_, ?_, ?_, ?_, ?_, ?_⟩
    · intro k o h; cases h
    · intro k o h; cases h
    · intro row hrow; cases hrow
    · intro row hrow; cases hrow
    · intro row hrow; cases hrow
    · intro row hrow; cases hrow

/-- The numbers of users depend on two hashes only. -/
theorem Users.congr (hs : Users vs s) (huser : s'.hash .user = s.hash .user)
    (hno : s'.hash .userno2unionid = s.hash .userno2unionid) : Users vs s' := by
  have hrecord : ∀ k, s'.record k = s.record k := fun k => Store.record_congr huser
  refine ⟨?_, ?_, ?_, ?_, ?_⟩
  · intro k o h
    exact hs.keyed k o (hrecord k ▸ h)
  · intro k hk
    rw [hrecord]
    exact hs.stored k (huser ▸ hk)
  · intro k o h
    exact hs.userno k o (hrecord k ▸ h)
  · intro n t h hk
    rw [hrecord]
    exact hs.mapped n t (hno ▸ h) hk
  · intro k h
    exact hs.known k (hrecord k ▸ h)

/-- The mirror after a change of rows that leaves those of stored users as they are. -/
theorem Mirror.congr (hs : Mirror s) (huser : s'.hash .user = s.hash .user)
    (hrow : ∀ row' ∈ s'.table .opUser, ∃ row ∈ s.table .opUser,
      row'.get "unionid" = row.get "unionid" ∧
        (storableKey (userKey (row.get "unionid")) → row' = row))
    (hkeep : ∀ row ∈ s.table .opUser, ∃ row' ∈ s'.table .opUser,
      row'.get "unionid" = row.get "unionid") : Mirror s' := by
  have hrecord : ∀ k, s'.record k = s.record k := fun k => Store.record_congr huser
  refine ⟨?_, ?_, ?_, ?_, ?_, ?_⟩
  · intro k o h
    exact hs.named k o (hrecord k ▸ h)
  · intro k o h
    obtain ⟨row, hmem, hkey⟩ := hs.row k o (hrecord k ▸ h)
    obtain ⟨row', hmem', hunionid⟩ := hkeep row hmem
    exact ⟨row', hmem', by rw [hunionid, hkey]⟩
  · intro row' hmem' o h
    obtain ⟨row, hmem, hunionid, hsame⟩ := hrow row' hmem'
    rw [hrecord, hunionid] at h
    rw [hsame (Store.storable_of_record h)]
    exact hs.agrees row hmem o h
  · intro row' hmem' hst
    obtain ⟨row, hmem, hunionid, -⟩ := hrow row' hmem'
    rw [hunionid] at hst ⊢
    rw [hrecord]
    exact hs.fresh row hmem hst
  · intro row' hmem'
    obtain ⟨row, hmem, hunionid, -⟩ := hrow row' hmem'
    rw [hunionid]
    exact hs.rowName row hmem
  · intro row₁' hmem₁' row₂' hmem₂'
    obtain ⟨row₁, hmem₁, hunionid₁, -⟩ := hrow row₁' hmem₁'
    obtain ⟨row₂, hmem₂, hunionid₂, -⟩ := hrow row₂' hmem₂'
    rw [hunionid₁, hunionid₂]
    exact hs.apart row₁ hmem₁ row₂ hmem₂

/-- The invariant is about three parts of the stores. -/
theorem Sound.congr (hs : Sound view vs s) (huser : s'.hash .user = s.hash .user)
    (hno : s'.hash .userno2unionid = s.hash .userno2unionid)
    (hrows : view = .rows → s'.table .opUser = s.table .opUser) : Sound view vs s' := by
  refine ⟨hs.toUsers.congr huser hno, fun hv k o h => ?_, fun hm =>
    (hs.mirrored hm).congr huser ?_ ?_⟩
  · unfold HasNumber
    rw [huser, hno]
    exact hs.numbered hv k o (Store.record_congr huser ▸ h)
  · intro row hrow
    exact ⟨row, hrows hm ▸ hrow, rfl, fun _ => rfl⟩
  · intro row hrow
    exact ⟨row, hrows hm ▸ hrow, rfl⟩

/-! ## One write of a record -/

/-- The values of the record `o` after a write of `data`. -/
structure Merged (o data o' : Fields) : Prop where
  get : ∀ f, f ≠ "unionid" → f ≠ "totalGetRedPackVal" →
    o'.get f = if f ∈ data then data.get f else o.get f
  total : (o'.get "totalGetRedPackVal").toNum =
    if "totalGetRedPackVal" ∈ data then (data.get "totalGetRedPackVal").toNum
    else (o.get "totalGetRedPackVal").toNum

/-- A changed row keeps its `unionid`. -/
theorem updateRow_unionid (data row : Fields) :
    (Store.updateRow data row).get "unionid" = row.get "unionid" := by
  unfold Store.updateRow
  split
  · exact Fields.get_merge_of_notMem fun h => (Fields.mem_without.mp h).1 rfl
  · rfl

/-- A row of another user is not changed. -/
theorem updateRow_of_ne {data row : Fields}
    (h : Store.foldCase (row.get "unionid").text ≠ Store.foldCase (data.get "unionid").text) :
    Store.updateRow data row = row :=
  if_neg h

/-- Case does not change the length. -/
theorem length_foldCase (t : String) : (Store.foldCase t).length = t.length := by
  rw [Store.foldCase, String.length_ofList, List.length_map, String.length_toList]

/-- What a row has up to case can be the `unionid` of a record. -/
theorem storableKey_of_foldCase {t t' : String} (h : RowName t) (hfold : Store.foldCase t = Store.foldCase t') :
    storableKey ("u_" ++ t') := by
  have hlen : t'.length ≤ 32 := by
    rw [← length_foldCase, ← hfold, length_foldCase]
    exact h.1
  have hsize := String.utf8ByteSize_ofList_le t'.toList
  rw [String.ofList_toList, String.length_toList] at hsize
  have hkey : ("u_" ++ t').utf8ByteSize = 2 + t'.utf8ByteSize := String.utf8ByteSize_append
  refine ⟨fun hempty => ?_, by omega⟩
  rw [hempty] at hkey
  have hzero : ("" : String).utf8ByteSize = 0 := rfl
  omega

/-- Rows of other users are not touched. -/
theorem Mirror.updateRow_of_ne (hs : Mirror s) (ho : s.record k = some o)
    (hdata : userKey (data.get "unionid") = k) {row : Fields} (hrow : row ∈ s.table .opUser)
    (hk : userKey (row.get "unionid") ≠ k) : Store.updateRow data row = row := by
  obtain ⟨own, hown, hkey⟩ := hs.row k o ho
  have htext : (own.get "unionid").text = (data.get "unionid").text :=
    text_of_userKey (hkey.trans hdata.symm)
  refine UserStores.updateRow_of_ne fun hfold => hk ?_
  rw [← htext] at hfold
  rw [userKey, hs.apart row hrow own hown hfold, htext, ← userKey, hdata]

/-- Rows and records that agree are written alike. -/
theorem Agrees.write {o o' row : Fields} (h : Agrees o row) (hmerged : Merged o data o')
    (hkey : userKey (row.get "unionid") = userKey (data.get "unionid")) :
    Agrees o' (Store.updateRow data row) := by
  have hget : ∀ f, f ≠ "unionid" → (Store.updateRow data row).get f =
      if f ∈ data then data.get f else row.get f := by
    intro f hf
    rw [Store.updateRow, if_pos (congrArg Store.foldCase (text_of_userKey hkey)), Fields.get_merge]
    by_cases hmem : f ∈ data
    · rw [if_pos (Fields.mem_without.mpr ⟨hf, hmem⟩), if_pos hmem, Fields.get_without_of_ne hf]
    · rw [if_neg fun h => hmem (Fields.mem_without.mp h).2, if_neg hmem]
  constructor
  · intro f hf htotal
    rw [hget f hf, hmerged.get f hf htotal, h.get f hf htotal]
  · rw [hget _ (by decide), hmerged.total]
    split
    · rfl
    · exact h.total

/-- A record is an entry of the user hash. -/
theorem mem_of_record (h : s.record k = some o) : k ∈ s.hash .user := by
  by_contra hk
  rw [Store.record, AList.lookup_eq_none.mpr hk] at h
  cases h

/-- The number `v` is replaced by `v'`: it stays set, and if numbers are followed it stays the
same. -/
def KeepsNumber (view : View) (v v' : Value) : Prop :=
  v' ≠ .null ∧ (view = .numbers → v'.text = v.text)

/-- The stored number is the one to keep. -/
theorem Sound.keepsNumber (hs : Sound view vs s) (ho : s.record k = some o) {v : Value}
    (h : v = o.get "userno") : KeepsNumber view (o.get "userno") v :=
  ⟨h ▸ hs.userno k o ho, fun _ => h ▸ rfl⟩

/-- **A write of a record** keeps the invariant, if the record stays under its key, keeps its
number, and MySQL is told what changes. -/
theorem Sound.write (data : Fields) (o' : JsonObject) (hs : Sound view vs s) (ho : s.record k = some o)
    (huser : s'.hash .user = (s.hash .user).insert k (some o'))
    (hunos : s'.hash .userno2unionid = s.hash .userno2unionid)
    (hkey : userKey (o'.get "unionid") = k)
    (hno : KeepsNumber view (o.get "userno") (o'.get "userno"))
    (hmirror : view = .rows → userKey (data.get "unionid") = k ∧
      s'.table .opUser = (s.table .opUser).map (Store.updateRow data) ∧
      Merged o.fields data o'.fields) : Sound view vs s' := by
  have hself : s'.record k = some o' := by
    rw [Store.record, huser, AList.lookup_insert]
    rfl
  have hother : ∀ k', k' ≠ k → s'.record k' = s.record k' := by
    intro k' hk'
    rw [Store.record, huser, AList.lookup_insert_ne hk', Store.record]
  -- the same users have records as before
  have hsome : ∀ k', (s'.record k').isSome = (s.record k').isSome := by
    intro k'
    by_cases hk' : k' = k
    · rw [hk', hself, ho]; rfl
    · rw [hother k' hk']
  have hmem := mem_of_record ho
  have hsize : (s'.hash .user).entries.length = (s.hash .user).entries.length := by
    rw [huser, AList.length_insert, if_pos hmem]
  refine ⟨⟨?_, ?_, ?_, ?_, ?_⟩, fun hv => ?_, fun hm => ?_⟩
  · intro k' r hr
    by_cases hk' : k' = k
    · rw [hk', hself] at hr
      cases hr
      rw [hk', hkey]
    · exact hs.keyed k' r (hother k' hk' ▸ hr)
  · intro k' hk'
    rw [hsome]
    rw [huser, AList.mem_insert] at hk'
    rcases hk' with rfl | hk'
    · exact hs.stored _ hmem
    · exact hs.stored k' hk'
  · intro k' r hr
    by_cases hk' : k' = k
    · rw [hk', hself] at hr
      cases hr
      exact hno.1
    · exact hs.userno k' r (hother k' hk' ▸ hr)
  · intro n t h hst
    rw [hsome]
    exact hs.mapped n t (hunos ▸ h) hst
  · intro k' h
    exact hs.known k' (hsome k' ▸ h)
  · -- the number stays, and the text that the unionid is printed as
    intro k' r hr
    unfold HasNumber
    rw [hsize, hunos]
    by_cases hk' : k' = k
    · rw [hk', hself] at hr
      cases hr
      have htext : (o'.get "unionid").text = (o.get "unionid").text :=
        text_of_userKey (hkey.trans (hs.keyed k o ho).symm)
      rw [hno.2 hv, htext]
      exact hs.numbered hv k o ho
    · exact hs.numbered hv k' r (hother k' hk' ▸ hr)
  · -- every row comes from one that agreed, and keeps its unionid
    obtain ⟨hdata, hrows, hmerged⟩ := hmirror hm
    have hmir := hs.mirrored hm
    have hsub : ∀ row' ∈ s'.table .opUser, ∃ row ∈ s.table .opUser, Store.updateRow data row = row' :=
      fun row' h => List.mem_map.mp (hrows ▸ h)
    refine ⟨?_, ?_, ?_, ?_, ?_, ?_⟩
    · intro k' r hr
      obtain ⟨r', hr'⟩ := Option.isSome_iff_exists.mp (hsome k' ▸ Option.isSome_of_eq_some hr)
      exact hmir.named k' r' hr'
    · intro k' r hr
      obtain ⟨r', hr'⟩ := Option.isSome_iff_exists.mp (hsome k' ▸ Option.isSome_of_eq_some hr)
      obtain ⟨row, hrow, hrk⟩ := hmir.row k' r' hr'
      exact ⟨Store.updateRow data row, hrows ▸ List.mem_map_of_mem hrow,
        by rw [updateRow_unionid, hrk]⟩
    · intro row' hrow' r hr
      obtain ⟨row, hrow, rfl⟩ := hsub row' hrow'
      rw [updateRow_unionid] at hr
      -- the rows of the user follow the record, all others are left alone
      by_cases hk' : userKey (row.get "unionid") = k
      · rw [hk', hself] at hr
        cases hr
        exact (hmir.agrees row hrow o (hk' ▸ ho)).write hmerged (hk'.trans hdata.symm)
      · rw [hmir.updateRow_of_ne ho hdata hrow hk']
        exact hmir.agrees row hrow r (hother _ hk' ▸ hr)
    · intro row' hrow' hst
      obtain ⟨row, hrow, rfl⟩ := hsub row' hrow'
      rw [updateRow_unionid] at hst ⊢
      rw [hsome]
      exact hmir.fresh row hrow hst
    · intro row' hrow'
      obtain ⟨row, hrow, rfl⟩ := hsub row' hrow'
      rw [updateRow_unionid]
      exact hmir.rowName row hrow
    · -- no new row, so the rows are apart in case as before
      intro row₁' hrow₁' row₂' hrow₂'
      obtain ⟨row₁, hrow₁, rfl⟩ := hsub row₁' hrow₁'
      obtain ⟨row₂, hrow₂, rfl⟩ := hsub row₂' hrow₂'
      rw [updateRow_unionid, updateRow_unionid]
      exact hmir.apart row₁ hrow₁ row₂ hrow₂

/-- MySQL is told about a user that cannot have a record. -/
theorem Sound.unstorable (hs : Sound view vs s) (hhash : s'.hash = s.hash)
    (hk : ¬ storableKey (userKey (data.get "unionid")))
    (hrows : view = .rows → s'.table .opUser =
      if (data.get "unionid").toBool then (s.table .opUser).map (Store.updateRow data)
      else s.table .opUser) : Sound view vs s' := by
  refine ⟨hs.toUsers.congr (congrFun hhash _) (congrFun hhash _), fun hv k o h => ?_, fun hm =>
    (hs.mirrored hm).congr (congrFun hhash _) ?_ ?_⟩
  · unfold HasNumber
    rw [hhash]
    exact hs.numbered hv k o (Store.record_congr (congrFun hhash _) ▸ h)
  · intro row' hrow'
    rw [hrows hm] at hrow'
    split at hrow'
    · obtain ⟨row, hrow, rfl⟩ := List.mem_map.mp hrow'
      refine ⟨row, hrow, updateRow_unionid data row, fun _ => updateRow_of_ne fun hfold => hk ?_⟩
      exact storableKey_of_foldCase ((hs.mirrored hm).rowName row hrow) hfold
    · exact ⟨row', hrow', rfl, fun _ => rfl⟩
  · intro row hrow
    rw [hrows hm]
    split
    · exact ⟨_, List.mem_map_of_mem hrow, updateRow_unionid data row⟩
    · exact ⟨row, hrow, rfl⟩

/-! ## The methods -/

/-- Every record has its number, so `getUser` only reads. -/
theorem Sound.getUser_run (hs : Sound view vs s) (u : Value) :
    (getUser u).run (exec w) s = (s.fieldsAt (userKey u), s) := by
  refine getUser_run_of_numbered w s u fun o ho => ?_
  exact JsonObject.isset_eq_true.mpr (hs.userno _ o ho)

/-- The `unionid` of a stored user counts as true, if rows are mirrored. -/
theorem Sound.toBool (hs : Sound view vs s) (hm : view = .rows) {u : Value}
    (ho : s.record (userKey u) = some o) : u.toBool = true := by
  rw [← Bool.not_eq_false]
  intro hfalse
  have hnamed := (hs.mirrored hm).named _ o ho
  rcases userKey_of_toBool hfalse with h | h
  · exact hnamed.1 h
  · exact hnamed.2 h

/-- `updateUser2` with a copy that has the number of the record, and agrees with it outside of the
data. -/
theorem Sound.updateUser2 (hs : Sound view vs s) (hok : view = .rows → ∀ n, w.mysqlOk n = true)
    (hdata : data.Encodable) (huser : user.Encodable)
    (hreg : data.isset "unionid" = true → Registered s (data.get "unionid"))
    (hcopy : ∀ o, s.record (userKey (data.get "unionid")) = some o →
      KeepsNumber view (o.get "userno") ((user.merge data).get "userno") ∧
        (view = .rows → Merged o.fields data (user.merge data))) :
    Sound view vs ((updateUser2 user data).run (exec w) s).2 := by
  have hhash := updateUser2_hash w s user data
  by_cases hset : data.isset "unionid" = true
  · rw [if_pos hset, Fields.jsonEncode_of_encodable (huser.merge hdata)] at hhash
    by_cases hk : storableKey (userKey (data.get "unionid"))
    · obtain ⟨o, ho⟩ := Option.isSome_iff_exists.mp (hreg hset hk)
      refine Sound.write data ⟨user.merge data, huser.merge hdata⟩ hs ho ?_ ?_ ?_
        (hcopy o ho).1 fun hm => ⟨rfl, ?_, (hcopy o ho).2 hm⟩
      · rw [hhash, Store.hset_hash_self hk]
      · rw [hhash, Store.hset_hash_of_ne (by decide)]
      · rw [JsonObject.get, Handler.merge_unionid hset]
      · rw [updateUser2_opUser w s (hok hm), if_pos (hs.toBool hm ho)]
    · rw [Store.hset_of_not_storable hk] at hhash
      exact hs.unstorable hhash hk fun hm => updateUser2_opUser w s (hok hm) user data
  · have hnone : (GameData.updateUser2 user data).run (exec w) s = ((), s) := by
      rw [GameData.updateUser2, if_neg hset]
      rfl
    rwa [hnone]

/-- `updateUser` for a registered user, with data that does not change the number. -/
theorem Sound.updateUser (hs : Sound view vs s) (hok : view = .rows → ∀ n, w.mysqlOk n = true)
    (hdata : data.Encodable) (hno : "userno" ∉ data)
    (hreg : data.isset "unionid" = true → Registered s (data.get "unionid")) :
    Sound view vs ((updateUser data).run (exec w) s).2 := by
  cases hset : data.isset "unionid" with
  | false => rwa [updateUser_run_of_unset w s data hset]
  | true =>
      rw [updateUser_run w s data hset, hs.getUser_run]
      refine hs.updateUser2 hok hdata Store.fieldsAt_encodable hreg fun o ho => ?_
      rw [Store.fieldsAt_of_record ho]
      refine ⟨hs.keepsNumber ho (Fields.get_merge_of_notMem hno), fun _ =>
        ⟨fun f _ _ => Fields.get_merge, ?_⟩⟩
      rw [Fields.get_merge]
      split <;> rfl

/-- What a reward tells MySQL names the user. -/
theorem rewardUpdateData_unionid :
    (rewardUpdateData (rewarded user)).get "unionid" = user.get "unionid" := by
  simp [rewardUpdateData, Fields.get_ofList_cons, rewarded_unionid]

/-- What a reward without score changes is what MySQL is told. -/
theorem merged_reward {o : Fields} (h : Agrees o user)
    (hscore : pendingReward user "add_score" = false) :
    Merged o (rewardUpdateData (rewarded user)) (rewarded user) := by
  constructor
  · intro f hf htotal
    split
    · rename_i hmem
      simp only [rewardUpdateData, Fields.mem_ofList, List.map_cons, List.map_nil, List.mem_cons,
        List.not_mem_nil, or_false] at hmem
      rcases hmem with rfl | rfl | rfl | rfl | rfl | rfl | rfl <;>
        simp [rewardUpdateData, Fields.get_ofList_cons]
    · rename_i hmem
      rw [← h.get f hf htotal]
      by_cases hrecharge : f = "rechargeVal"
      · rw [hrecharge, rewarded_rechargeVal hscore]
      · refine rewarded_get_of_notMem fun hnames => hmem ?_
        simp only [rewardNames, List.mem_cons, List.not_mem_nil, or_false] at hnames
        simp only [rewardUpdateData, Fields.mem_ofList, List.map_cons, List.map_nil, List.mem_cons,
          List.not_mem_nil, or_false]
        tauto
  · rw [rewarded_get_of_notMem (by decide), h.total, if_neg (by simp [rewardUpdateData, Fields.mem_ofList])]

/-- A reward writes a copy of a stored record that has its number; MySQL is told everything if the
copy agrees with the record and no score is among the reward. -/
theorem Sound.addUserReward (hs : Sound view vs s)
    (hok : view = .rows → ∀ n, w.mysqlOk n = true) {now : ℕ} (ho : s.record k = some o)
    (huser : user.Encodable) (hkey : userKey (user.get "unionid") = k)
    (hno : user.get "userno" = o.get "userno")
    (hcopy : view = .rows → isAdd user = true → pendingReward user "add_score" = false ∧
      Agrees o.fields user) :
    Sound view vs ((addUserReward now user).run (exec w) s).2 := by
  have hhash := addUserReward_hash w s now user
  cases hadd : isAdd user with
  | false =>
      rw [hadd, if_neg Bool.false_ne_true] at hhash
      refine hs.congr (congrFun hhash _) (congrFun hhash _) fun hm => ?_
      rw [addUserReward_opUser w s now (hok hm), hadd, if_neg fun h => Bool.false_ne_true h.1]
  | true =>
      have hk : storableKey (userKey (user.get "unionid")) := hkey ▸ Store.storable_of_record ho
      rw [hadd, if_pos rfl, Fields.jsonEncode_of_encodable (rewarded_encodable huser)] at hhash
      refine Sound.write (rewardUpdateData (rewarded user))
        ⟨rewarded user, rewarded_encodable huser⟩ hs ho ?_ ?_ ?_ ?_ fun hm => ⟨?_, ?_, ?_⟩
      · rw [hhash, Store.hset_hash_self hk, hkey]
      · rw [hhash, Store.hset_hash_of_ne (by decide)]
      · rw [JsonObject.get, rewarded_unionid, hkey]
      · exact hs.keepsNumber ho ((rewarded_get_of_notMem (by decide)).trans hno)
      · rw [rewardUpdateData_unionid, hkey]
      · rw [addUserReward_opUser w s now (hok hm), if_pos ⟨hadd, hs.toBool hm (hkey ▸ ho)⟩]
      · exact merged_reward (hcopy hm hadd).2 (hcopy hm hadd).1

/-! ## Registration -/

/-- The next number counts the entries of the user hash. -/
theorem nextUserno_eq (s : Store) :
    nextUserno s = ((100001 + (s.hash .user).entries.length : ℕ) : ℚ) := by
  rw [nextUserno]
  push_cast
  ring

/-- The record and the row of a new user agree. -/
theorem agrees_registered {now : ℕ} (htotal : user.get "totalGetRedPackVal" = .null) :
    Agrees (registered now user s) (registeredRow now user s) := by
  constructor
  · intro f hf hne
    rw [registeredRow, Fields.get_merge]
    split
    · rename_i hmem
      rw [Fields.mem_ofList, List.map_cons, List.mem_cons] at hmem
      have hnames := hmem.resolve_left hne
      have hno : f ≠ "userno" := by
        rintro rfl
        simp [registrationFields] at hnames
      have htoday : f ≠ "todayRechargeVal" := by
        rintro rfl
        simp [registrationFields] at hnames
      rw [registered_get_of_ne s now hno, newUser_get, if_pos (List.mem_cons_of_mem _ hnames),
        Fields.get_ofList_cons, if_neg hne, Fields.get_ofList_cons, if_neg htoday]
    · rfl
  · have hrow : (registeredRow now user s).get "totalGetRedPackVal" = .num 0 := by
      rw [registeredRow, Fields.get_merge_of_mem (by simp [Fields.mem_ofList])]
      simp [Fields.get_ofList_cons]
    rw [hrow, registered_get_of_ne s now (by decide), newUser_get,
      if_neg (by simp [registrationFields]), htotal]
    rfl

/-- A new row is that of the registered user. -/
theorem registeredRow_unionid {now : ℕ} :
    (registeredRow now user s).get "unionid" = user.get "unionid" := by
  rw [registeredRow, Fields.get_merge_of_notMem (by simp [Fields.mem_ofList, registrationFields]),
    registered_unionid]

/-- The stores after a registration: the record `r` under the key `k`, and the entry of its
number. -/
structure Enrolled (k : String) (r : JsonObject) (s s' : Store) : Prop where
  user : s'.hash .user = (s.hset .user k (some r)).hash .user
  unos : s'.hash .userno2unionid =
    (s.hash .userno2unionid).insert (Value.num (nextUserno s)).text (r.get "unionid").text
  unionid : userKey (r.get "unionid") = k
  userno : r.get "userno" = .num (nextUserno s)

section Enrolled

variable {r : JsonObject}

/-- The records after a registration. -/
theorem Enrolled.record (h : Enrolled k r s s') (k' : String) :
    s'.record k' = if k' = k ∧ storableKey k then some r else s.record k' :=
  (Store.record_congr h.user).trans Store.record_hset

/-- A record is the new one, or it was there before. -/
theorem Enrolled.cases (h : Enrolled k r s s') {k' : String} {o' : JsonObject}
    (ho' : s'.record k' = some o') :
    (k' = k ∧ storableKey k ∧ o' = r) ∨ s.record k' = some o' := by
  rw [h.record] at ho'
  split at ho'
  · rename_i hk
    cases ho'
    exact Or.inl ⟨hk.1, hk.2, rfl⟩
  · exact Or.inr ho'

/-- A user who had a record has one after a registration. -/
theorem Enrolled.isSome (h : Enrolled k r s s') {k' : String}
    (ho : (s.record k').isSome = true) : (s'.record k').isSome = true := by
  rw [h.record]
  split
  · rfl
  · exact ho

/-- And the registered user has one. -/
theorem Enrolled.isSome_self (h : Enrolled k r s s') (hk : storableKey k) :
    (s'.record k).isSome = true := by
  rw [h.record, if_pos ⟨rfl, hk⟩]
  rfl

/-- The hash grows by the new record. -/
theorem Enrolled.size (h : Enrolled k r s s') (hnew : k ∉ s.hash .user) :
    (s'.hash .user).entries.length =
      if storableKey k then (s.hash .user).entries.length + 1
      else (s.hash .user).entries.length := by
  rw [h.user]
  split
  · rename_i hk
    rw [Store.hset_hash_self hk, AList.length_insert, if_neg hnew]
  · rename_i hk
    rw [Store.hset_of_not_storable hk]

/-- A user without record is not in the user hash. -/
theorem Users.notMem (hs : Users vs s) (hnone : s.record k = none) : k ∉ s.hash .user := by
  intro hmem
  have hsome := hs.stored k hmem
  rw [hnone] at hsome
  cases hsome

/-- A registration numbers its user as the next one. -/
theorem Users.enroll (hs : Users vs s) (h : Enrolled k r s s') :
    Users (vs ++ [(r.get "unionid").text]) s' := by
  refine ⟨?_, ?_, ?_, ?_, ?_⟩
  · intro k' o' ho'
    rcases h.cases ho' with ⟨rfl, -, rfl⟩ | ho'
    · exact h.unionid
    · exact hs.keyed k' o' ho'
  · intro k' hk'
    rw [h.user] at hk'
    by_cases hk : storableKey k
    · rw [Store.hset_hash_self hk, AList.mem_insert] at hk'
      rcases hk' with rfl | hk'
      · exact h.isSome_self hk
      · exact h.isSome (hs.stored k' hk')
    · rw [Store.hset_of_not_storable hk] at hk'
      exact h.isSome (hs.stored k' hk')
  · intro k' o' ho'
    rcases h.cases ho' with ⟨-, -, rfl⟩ | ho'
    · rw [h.userno]
      nofun
    · exact hs.userno k' o' ho'
  · intro n t hlookup hst
    rw [h.unos] at hlookup
    by_cases hn : n = (Value.num (nextUserno s)).text
    · rw [hn, AList.lookup_insert] at hlookup
      cases hlookup
      have hkey : userKey (.str (r.get "unionid").text) = k := h.unionid
      rw [hkey] at hst ⊢
      exact h.isSome_self hst
    · rw [AList.lookup_insert_ne hn] at hlookup
      exact h.isSome (hs.mapped n t hlookup hst)
  · intro k' hk'
    obtain ⟨o', ho'⟩ := Option.isSome_iff_exists.mp hk'
    rcases h.cases ho' with ⟨rfl, -, -⟩ | ho'
    · exact ⟨_, List.mem_append_right _ List.mem_cons_self, h.unionid.symm⟩
    · obtain ⟨t, ht, hkey⟩ := hs.known k' (Option.isSome_of_eq_some ho')
      exact ⟨t, List.mem_append_left _ ht, hkey⟩

/-- The new user gets a number that nobody has. -/
theorem Enrolled.hasNumber (h : Enrolled k r s s') (hnew : k ∉ s.hash .user)
    (hs : ∀ k o, s.record k = some o → ∃ n, HasNumber s o n) {k' : String} {o' : JsonObject}
    (ho' : s'.record k' = some o') : ∃ n, HasNumber s' o' n := by
  have hsize := h.size hnew
  rcases h.cases ho' with ⟨rfl, hk, rfl⟩ | ho'
  · refine ⟨100001 + (s.hash .user).entries.length, by rw [h.userno, nextUserno_eq], ?_, ?_⟩
    · rw [hsize, if_pos hk]
      omega
    · rw [h.unos, ← nextUserno_eq, AList.lookup_insert]
  · -- the numbers given so far are smaller than the new one
    obtain ⟨n, hn, hle, hlookup⟩ := hs k' o' ho'
    refine ⟨n, hn, ?_, ?_⟩
    · rw [hsize]
      split <;> omega
    · rw [h.unos, AList.lookup_insert_ne, hlookup]
      intro heq
      rw [nextUserno_eq] at heq
      have := text_natCast_injective heq
      omega

/-- A registration brings a record and a row that agree. -/
theorem Mirror.enroll {row : Fields} (hs : Mirror s) (h : Enrolled k r s s')
    (hnone : s.record k = none) (hnew : Enrollable s (row.get "unionid"))
    (hrows : s'.table .opUser = s.table .opUser ++ [row])
    (hrow : userKey (row.get "unionid") = k) (hagrees : Agrees r.fields row) : Mirror s' := by
  obtain ⟨hnamed, hname, hapart⟩ := hnew
  rw [hrow] at hnamed
  refine ⟨?_, ?_, ?_, ?_, ?_, ?_⟩
  · intro k' o' ho'
    rcases h.cases ho' with ⟨rfl, -, -⟩ | ho'
    · exact hnamed
    · exact hs.named k' o' ho'
  · intro k' o' ho'
    rw [hrows]
    rcases h.cases ho' with ⟨rfl, -, -⟩ | ho'
    · exact ⟨row, List.mem_append_right _ List.mem_cons_self, hrow⟩
    · obtain ⟨row', hrow', hkey⟩ := hs.row k' o' ho'
      exact ⟨row', List.mem_append_left _ hrow', hkey⟩
  · intro row' hmem o' ho'
    rw [hrows, List.mem_append, List.mem_singleton] at hmem
    rcases hmem with hmem | rfl
    · rcases h.cases ho' with ⟨hkey, hk, -⟩ | ho'
      · -- the new user had no row
        have hsome := hs.fresh row' hmem (hkey ▸ hk)
        rw [hkey, hnone] at hsome
        cases hsome
      · exact hs.agrees row' hmem o' ho'
    · rcases h.cases ho' with ⟨-, -, rfl⟩ | ho'
      · exact hagrees
      · rw [hrow, hnone] at ho'
        cases ho'
  · intro row' hmem hst
    rw [hrows, List.mem_append, List.mem_singleton] at hmem
    rcases hmem with hmem | rfl
    · exact h.isSome (hs.fresh row' hmem hst)
    · rw [hrow] at hst ⊢
      exact h.isSome_self hst
  · intro row' hmem
    rw [hrows, List.mem_append, List.mem_singleton] at hmem
    rcases hmem with hmem | rfl
    · exact hs.rowName row' hmem
    · exact hname
  · intro row₁ hmem₁ row₂ hmem₂ hfold
    rw [hrows, List.mem_append, List.mem_singleton] at hmem₁ hmem₂
    rcases hmem₁ with hmem₁ | rfl
    · rcases hmem₂ with hmem₂ | rfl
      · exact hs.apart row₁ hmem₁ row₂ hmem₂ hfold
      · exact hapart row₁ hmem₁ hfold
    · rcases hmem₂ with hmem₂ | rfl
      · exact (hapart row₂ hmem₂ hfold.symm).symm
      · rfl

end Enrolled

/-- `addUser` registers its user. -/
theorem addUser_enrolled (now : ℕ) (henc : user.Encodable)
    (hnumber : storableKey (Value.num (nextUserno s)).text) :
    Enrolled (userKey (user.get "unionid"))
      ⟨registered now user s, registered_encodable s now henc⟩ s
      ((addUser now user).run (exec w) s).2 := by
  have hhash := addUser_hash w s now user
  rw [Fields.jsonEncode_of_encodable (registered_encodable s now henc)] at hhash
  refine ⟨?_, ?_, ?_, registered_userno s now⟩
  · rw [hhash, Store.hset_hash_of_ne (by decide)]
  · rw [hhash, Store.hset_hash_self hnumber, Store.hset_hash_of_ne (by decide), JsonObject.get,
      registered_unionid]
  · rw [JsonObject.get, registered_unionid]

/-- **Registration** of a user without a record. -/
theorem Sound.addUser (hs : Sound view vs s) (hok : view = .rows → ∀ n, w.mysqlOk n = true)
    (now : ℕ) (hnone : s.record (userKey (user.get "unionid")) = none) (henc : user.Encodable)
    (hnumber : storableKey (Value.num (nextUserno s)).text)
    (hmirror : view = .rows → user.get "totalGetRedPackVal" = .null ∧
      Enrollable s (user.get "unionid")) :
    Sound view (vs ++ [(user.get "unionid").text]) ((addUser now user).run (exec w) s).2 := by
  have henrolled := addUser_enrolled (w := w) now henc hnumber
  refine ⟨?_, fun hv k o ho => ?_, fun hm => ?_⟩
  · have husers := hs.toUsers.enroll henrolled
    rwa [JsonObject.get, registered_unionid] at husers
  · exact henrolled.hasNumber (hs.notMem hnone) (hs.numbered hv) ho
  · exact (hs.mirrored hm).enroll henrolled hnone (by rw [registeredRow_unionid]; exact (hmirror hm).2)
      (addUser_opUser w s now (hok hm) user)
      (by rw [registeredRow_unionid]) (agrees_registered (hmirror hm).1)

/-! ## What the invariant does not depend on -/

/-- The parts of the stores that hold no users. -/
def Outside (q : StorePart) : Prop :=
  q ≠ .hash .user ∧ q ≠ .hash .userno2unionid ∧ q ≠ .table .opUser

instance (q : StorePart) : Decidable (Outside q) := by unfold Outside; infer_instance

/-- A handler that writes elsewhere keeps the stores sound. -/
theorem Sound.outside {α : Type} {p : Handler α} (hs : Sound view vs s)
    (hp : Handler.Writes Outside p) : Sound view vs (p.run (exec w) s).2 :=
  hs.congr (hp.run_hash (by simp [Outside]) s) (hp.run_hash (by simp [Outside]) s)
    fun _ => hp.run_table (by simp [Outside]) s

/-- A quiet handler writes elsewhere. -/
theorem outside_of_quiet {α : Type} {p : Handler α} (hp : Handler.Quiet p) :
    Handler.Writes Outside p := by
  refine Handler.Writes.mono hp fun q hq => ?_
  cases q with
  | hash h => exact absurd hq (fun h => h)
  | table t => rcases hq with rfl | rfl <;> decide
  | _ => decide

/-- An entry in the score log is elsewhere. -/
theorem outside_logScore (b : Bool) (row : Fields) :
    Handler.Writes Outside (Handler.when b do let _ ← insertAddScoreLogMysql row) :=
  (logScore_writes b row).mono fun q hq => by rw [hq]; decide

/-- The fields are empty for users without record only. -/
theorem Sound.isEmpty_fieldsAt (hs : Sound view vs s) (k : String) :
    (s.fieldsAt k).isEmpty = (s.record k).isNone := by
  cases hrecord : s.record k with
  | none =>
      rw [Store.fieldsAt_of_none hrecord]
      rfl
  | some o =>
      rw [Store.fieldsAt_of_record hrecord]
      exact isEmpty_of_isset (f := "userno") (Fields.isset_eq_true.mpr (hs.userno k o hrecord))

/-! ## Copies of a record -/

/-- What a handler knows about its copy of the record under `k`. -/
structure CopyOf (view : View) (s : Store) (k : String) (user : Fields) : Prop where
  encodable : user.Encodable
  key : userKey (user.get "unionid") = k
  record : ∃ o, s.record k = some o ∧ user.get "userno" = o.get "userno" ∧
    (view = .rows → isAdd user = true → Agrees o.fields user)

/-- A record is a copy of itself. -/
theorem Sound.copyOf (hs : Sound view vs s) (ho : s.record k = some o) :
    CopyOf view s k o.fields :=
  ⟨o.encodable, hs.keyed k o ho, o, ho, rfl, fun _ _ => ⟨fun _ _ _ => rfl, rfl⟩⟩

/-- An update keeps the numbers of all records. -/
theorem Sound.userno_updateUser (hs : Sound view vs s) (hdata : data.Encodable)
    (hno : "userno" ∉ data) (ho : s.record k = some o) :
    ∃ o', ((GameData.updateUser data).run (exec w) s).2.record k = some o' ∧
      o'.get "userno" = o.get "userno" := by
  rw [updateUser_record, hs.getUser_run]
  split
  · rename_i h
    rw [← h.2.1, Store.fieldsAt_of_record ho,
      Fields.jsonEncode_of_encodable (o.encodable.merge hdata)]
    exact ⟨_, rfl, Fields.get_merge_of_notMem hno⟩
  · exact ⟨o, ho, rfl⟩

/-- After an update the handler goes on with a copy that has the same number. -/
theorem CopyOf.after_update {user' : Fields} (hs : Sound view vs s)
    (hcopy : CopyOf view s k user) (hdata : data.Encodable) (hno : "userno" ∉ data)
    (henc : user'.Encodable) (hsame : ∀ f ∈ ["unionid", "userno"], user'.get f = user.get f)
    (hadd : view = .rows → isAdd user' = false) :
    CopyOf view ((updateUser data).run (exec w) s).2 k user' := by
  obtain ⟨o, ho, hnum, -⟩ := hcopy.record
  obtain ⟨o', ho', hnum'⟩ := hs.userno_updateUser (w := w) hdata hno ho
  refine ⟨henc, by rw [hsame _ (by decide), hcopy.key], o', ho', ?_, fun hm h => ?_⟩
  · rw [hsame _ (by decide), hnum, hnum']
  · rw [hadd hm] at h
    cases h

/-- A copy stays one while the record does. -/
theorem CopyOf.of_record {s' : Store} (hcopy : CopyOf view s k user)
    (h : s'.record k = s.record k) : CopyOf view s' k user := by
  obtain ⟨o, ho, hrest⟩ := hcopy.record
  exact ⟨hcopy.encodable, hcopy.key, o, h.trans ho, hrest⟩

/-- A user with a copy is registered. -/
theorem CopyOf.registered (hcopy : CopyOf view s k user) {u : Value} (hu : userKey u = k) :
    Registered s u := by
  obtain ⟨o, ho, -⟩ := hcopy.record
  intro _
  rw [hu, ho]
  rfl

end Sound

end UserStores

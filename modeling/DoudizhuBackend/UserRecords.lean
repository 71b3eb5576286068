/-
# What the methods of `GameData` do to user records

The specifications of `getUser`, `updateUser`, `updateUser2`, `addUser` and `addUserReward`
for whole executions, as equations for the parts of the stores that the later files reason
about: the records (`Store.record`), the rows of `op_user`, the rows of `op_score_log`.  The
later files use these and never unfold the methods.

Everything the handlers do besides (notices, counters, room results, pages of the back
office, the other tables) is *quiet*: it changes none of these parts (`Handler.Quiet`).
-/
import DoudizhuBackend.Players
import DoudizhuBackend.AddCoin

open Php GameData

/-! ## Records -/

namespace Store

variable {s s' : Store} {k k' : String}

/-- The user record under a key.  The empty text is no record. -/
def record (s : Store) (k : String) : Option JsonObject := ((s.hash .user).lookup k).join

/-- The fields of the record under a key; the empty array if there is none. -/
def fieldsAt (s : Store) (k : String) : Fields := (s.record k).elim ∅ JsonObject.fields

/-- The records are those of the user hash. -/
theorem record_congr (h : s'.hash .user = s.hash .user) : s'.record k = s.record k := by
  rw [record, record, h]

/-- Equal records have equal fields. -/
theorem fieldsAt_congr (h : s'.record k = s.record k) : s'.fieldsAt k = s.fieldsAt k := by
  rw [fieldsAt, fieldsAt, h]

/-- The fields of a user who has a record. -/
theorem fieldsAt_of_record {o : JsonObject} (h : s.record k = some o) :
    s.fieldsAt k = o.fields := by
  rw [fieldsAt, h]
  rfl

/-- A user without record has no fields. -/
theorem fieldsAt_of_none (h : s.record k = none) : s.fieldsAt k = ∅ := by
  rw [fieldsAt, h]
  rfl

/-- The fields of a record can be written again. -/
theorem fieldsAt_encodable : (s.fieldsAt k).Encodable := by
  unfold fieldsAt
  cases s.record k with
  | none => exact Fields.encodable_empty
  | some o => exact o.encodable

/-- There is no record under a key that SSDB refuses. -/
theorem record_of_not_storable (hk : ¬ storableKey k) : s.record k = none := by
  rw [record, lookup_of_not_storable hk]
  rfl

/-- So the key of a record is one that it accepts. -/
theorem storable_of_record {o : JsonObject} (h : s.record k = some o) : storableKey k := by
  by_contra hk
  rw [record_of_not_storable hk] at h
  cases h

/-- The records after a write of the record under `k'`. -/
theorem record_hset {v : Option JsonObject} :
    (s.hset .user k' v).record k = if k = k' ∧ storableKey k' then v else s.record k := by
  unfold record
  by_cases hs : storableKey k'
  · by_cases hk : k = k'
    · subst hk
      rw [lookup_hset_self hs, if_pos ⟨rfl, hs⟩]
      rfl
    · rw [lookup_hset_of_ne hk, if_neg (fun h => hk h.1)]
  · rw [hset_of_not_storable hs, if_neg (fun h => hs h.2)]

/-- A write to another hash keeps the records. -/
theorem record_hset_of_ne {h : HashName} {v : h.Val} (hh : HashName.user ≠ h) :
    (s.hset h k' v).record k = s.record k :=
  record_congr (hset_hash_of_ne hh)

/-- The empty store has no records. -/
theorem empty_record : Store.empty.record k = none := rfl

end Store

/-! ## Quiet handlers -/

/-- The parts of the stores that no property of the later files looks at. -/
def StorePart.Aux : StorePart → Prop
  | .kv => True
  | .kvJson => True
  | .queues => True
  | .table t => t = .opGetRedpackRecord ∨ t = .opRechargeRecord
  | .hash _ => False

/-- A handler that writes only such parts. -/
def Handler.Quiet {α : Type} (p : Handler α) : Prop := Handler.Writes StorePart.Aux p

namespace Handler

variable {α : Type} {p : Handler α} {w : World}

/-- A quiet handler keeps all hashes. -/
theorem Quiet.hash (hp : Handler.Quiet p) (s : Store) : (p.run (exec w) s).2.hash = s.hash :=
  funext fun _ => Writes.run_hash hp (fun h => h) s

/-- It keeps the records. -/
theorem Quiet.record (hp : Handler.Quiet p) (s : Store) (k : String) :
    (p.run (exec w) s).2.record k = s.record k :=
  Store.record_congr (congrFun (hp.hash s) _)

/-- It keeps the rows of the users. -/
theorem Quiet.opUser (hp : Handler.Quiet p) (s : Store) :
    (p.run (exec w) s).2.table .opUser = s.table .opUser :=
  Writes.run_table hp (by simp [StorePart.Aux]) s

/-- And it keeps the score log. -/
theorem Quiet.opScoreLog (hp : Handler.Quiet p) (s : Store) :
    (p.run (exec w) s).2.table .opScoreLog = s.table .opScoreLog :=
  Writes.run_table hp (by simp [StorePart.Aux]) s

/-- A single command is quiet if the part it writes, if any, is. -/
theorem quiet_issue {c : Cmd} (h : ∀ q, c.part = some q → q.Aux) : Handler.Quiet (issue c) :=
  Writes.issue h

/-- Counters are quiet. -/
theorem quiet_addToCounter (key : String) (val : Value) :
    Handler.Quiet (GameData.addToCounter key val) :=
  Writes.bind (quiet_issue (by simp [Cmd.part])) fun _ =>
    quiet_issue (by simp [Cmd.part, StorePart.Aux])

/-- A push to a queue is quiet. -/
theorem quiet_pushBounded (name : String) (bound : ℕ) (item : Item) :
    Handler.Quiet (pushBounded name bound item) :=
  Writes.bind (quiet_issue (by simp [Cmd.part])) fun _ =>
    Writes.bind (Writes.when (quiet_issue (by simp [Cmd.part, StorePart.Aux]))) fun _ =>
      quiet_issue (by simp [Cmd.part, StorePart.Aux])

/-- A notice is quiet. -/
theorem quiet_addNotice (noticeStr level : Value) : Handler.Quiet (addNotice noticeStr level) :=
  Writes.ite (quiet_pushBounded _ _ _) (quiet_pushBounded _ _ _)

/-- The reward pool is quiet. -/
theorem quiet_addRewardPool (rewardVal : Value) : Handler.Quiet (addRewardPool rewardVal) :=
  Writes.bind (quiet_issue (by simp [Cmd.part])) fun _ =>
    Writes.ite (quiet_issue (by simp [Cmd.part, StorePart.Aux]))
      (quiet_issue (by simp [Cmd.part, StorePart.Aux]))

/-- A call to the site of the back office is quiet. -/
theorem quiet_sitePage (route : String) (args : List Value) :
    Handler.Quiet (issue (.sitePage route args)) :=
  quiet_issue (by simp [Cmd.part])

/-- A row in the table of recharges is quiet. -/
theorem quiet_addRechargeRecordMysql (row : Fields) :
    Handler.Quiet (addRechargeRecordMysql row) :=
  quiet_issue (by simp [Cmd.part, StorePart.Aux])

/-- A row in the table of red packets is quiet. -/
theorem quiet_addRedpackRecordMysql (row : Fields) :
    Handler.Quiet (addRedpackRecordMysql row) :=
  quiet_issue (by simp [Cmd.part, StorePart.Aux])

/-- The notice about a red packet is quiet. -/
theorem quiet_addRedPackNotice (user : Fields) (fen : ℚ) :
    Handler.Quiet (GameServer.addRedPackNotice user fen) :=
  Writes.when (quiet_addNotice _ _)

/-- The history of room results is quiet. -/
theorem quiet_recordRoomResult (now : ℕ) (unionid : Value) (roomResult : Option RoomResult) :
    Handler.Quiet (GameServer.recordRoomResult now unionid roomResult) := by
  refine Writes.bind (Writes.when (Writes.bind (quiet_sitePage _ _) fun _ => ?_)) fun _ =>
    Writes.when (Writes.ite (quiet_addToCounter _ _) (quiet_addToCounter _ _))
  cases roomResult with
  | none => exact Writes.ret ()
  | some r => exact quiet_pushBounded _ _ _

/-- The bookkeeping of a red packet is quiet. -/
theorem quiet_recordRedPack (user userData : Fields) (roomResult : Option RoomResult) :
    Handler.Quiet (GameServer.recordRedPack user userData roomResult) :=
  Writes.bind (quiet_addRedPackNotice _ _) fun _ =>
    Writes.when (Writes.ite (quiet_addToCounter _ _) (quiet_addToCounter _ _))

end Handler

/-! ## Reading a record -/

section GetUser

variable (w : World) (s : Store) (u : Value)

/-- What `getUser` makes of the record `r`: the same fields, with a number in any case. -/
structure Found (r : Option JsonObject) (user : Fields) : Prop where
  get : ∀ f, f ≠ "userno" → user.get f = (r.elim ∅ JsonObject.fields).get f
  isEmpty : user.isEmpty = r.isNone
  encodable : user.Encodable

/-- A record with a field is not empty. -/
theorem isEmpty_of_isset {user : Fields} {f : String} (h : user.isset f = true) :
    user.isEmpty = false := by
  cases hu : user.isEmpty with
  | false => rfl
  | true =>
      have hnil : user.entries = [] := by simpa [Fields.isEmpty] using hu
      have hnull : user.get f = .null := by simp [Fields.get, AList.lookup, hnil]
      rw [Fields.isset_eq_true] at h
      exact absurd hnull h

/-- `getUser` returns the record, but for a number that it may have drawn. -/
theorem getUser_found : Found (s.record (userKey u)) ((getUser u).run (exec w) s).1 := by
  unfold getUser Store.record
  simp only [Prog.run_bind, Prog.run_call, exec]
  cases ((s.hash .user).lookup (userKey u)).join with
  | none => exact ⟨fun _ _ => rfl, rfl, Fields.encodable_empty⟩
  | some o =>
      dsimp only
      cases hno : o.isset "userno" with
      | true => exact ⟨fun _ _ => rfl, isEmpty_of_isset hno, o.encodable⟩
      | false =>
          refine ⟨fun f hf => Fields.get_set_of_ne hf, ?_, o.encodable.set rfl⟩
          exact isEmpty_of_isset (f := "userno") (by rw [Fields.isset_eq_true]; simp)

/-- `getUser` writes to `userno2unionid` only. -/
theorem getUser_writes : Handler.Writes (· = .hash .userno2unionid) (getUser u) := by
  refine Handler.Writes.bind (Handler.Writes.issue (by simp [Cmd.part])) fun userJson => ?_
  cases userJson.join with
  | none => exact Handler.Writes.ret _
  | some o =>
      refine Handler.Writes.ite (Handler.Writes.ret _) ?_
      refine Handler.Writes.bind (Handler.Writes.issue (by simp [Cmd.part])) fun userno => ?_
      exact Handler.Writes.bind (Handler.Writes.issue (by simp [Cmd.part])) fun _ =>
        Handler.Writes.ret _

/-- `getUser` keeps the other hashes. -/
theorem getUser_hash {h : HashName} (hh : h ≠ .userno2unionid) :
    ((getUser u).run (exec w) s).2.hash h = s.hash h :=
  (getUser_writes u).run_hash (by simpa using hh) s

/-- `getUser` keeps the records. -/
theorem getUser_record (k : String) :
    ((getUser u).run (exec w) s).2.record k = s.record k :=
  Store.record_congr (getUser_hash w s u (by decide))

/-- `getUser` keeps the tables. -/
theorem getUser_table (t : Table) :
    ((getUser u).run (exec w) s).2.table t = s.table t :=
  (getUser_writes u).run_table (by simp) s

/-- A record that has its number is read as it is, and nothing changes. -/
theorem getUser_run_of_numbered
    (h : ∀ o, s.record (userKey u) = some o → o.isset "userno" = true) :
    (getUser u).run (exec w) s = (s.fieldsAt (userKey u), s) := by
  unfold getUser
  simp only [Prog.run_bind, Prog.run_call, exec]
  rw [Store.fieldsAt]
  unfold Store.record at h ⊢
  cases hrec : ((s.hash .user).lookup (userKey u)).join with
  | none => rfl
  | some o =>
      have hno := h o hrec
      simp only [hno, if_true]
      rfl

end GetUser

/-! ## Writing a record -/

section Update

variable (w : World) (s : Store)

/-- `updateUser_mysql` writes to `op_user` only. -/
theorem updateUserMysql_writes (data : Fields) :
    Handler.Writes (· = .table .opUser) (updateUserMysql data) :=
  Handler.Writes.ite (Handler.Writes.issue (by simp [Cmd.part])) (Handler.Writes.ret _)

/-- It keeps the hashes. -/
theorem updateUserMysql_hash (data : Fields) :
    ((updateUserMysql data).run (exec w) s).2.hash = s.hash :=
  funext fun _ => (updateUserMysql_writes data).run_hash (by simp) s

/-- It keeps the other tables. -/
theorem updateUserMysql_table_of_ne (data : Fields) {t : Table} (ht : t ≠ .opUser) :
    ((updateUserMysql data).run (exec w) s).2.table t = s.table t :=
  (updateUserMysql_writes data).run_table (by simpa using ht) s

/-- The rows of `op_user` after an update, when MySQL accepts it. -/
theorem updateUserMysql_opUser (hok : ∀ n, w.mysqlOk n = true) (data : Fields) :
    ((updateUserMysql data).run (exec w) s).2.table .opUser =
      if (data.get "unionid").toBool then (s.table .opUser).map (Store.updateRow data)
      else s.table .opUser := by
  unfold updateUserMysql
  split
  · simp [exec, hok, Store.updateOpUser]
  · rfl

/-- The hashes after `updateUser2`: the caller's copy with the data is written. -/
theorem updateUser2_hash (user data : Fields) :
    ((updateUser2 user data).run (exec w) s).2.hash =
      if data.isset "unionid" then
        (s.hset .user (userKey (data.get "unionid")) (user.merge data).jsonEncode).hash
      else s.hash := by
  unfold updateUser2
  split
  · simp only [Prog.run_bind, Prog.run_call, exec, Prog.pure_eq_ret, Prog.run_ret]
    exact updateUserMysql_hash w _ data
  · rfl

/-- The records after `updateUser2`: the caller's copy with the data. -/
theorem updateUser2_record (user data : Fields) (k : String) :
    ((updateUser2 user data).run (exec w) s).2.record k =
      if data.isset "unionid" = true ∧ k = userKey (data.get "unionid") ∧ storableKey k then
        (user.merge data).jsonEncode
      else s.record k := by
  have hhash := updateUser2_hash w s user data
  by_cases hset : data.isset "unionid" = true
  · rw [if_pos hset] at hhash
    rw [Store.record_congr (congrFun hhash _), Store.record_hset]
    by_cases hk : k = userKey (data.get "unionid")
    · simp [hset, hk]
    · simp [hset, hk]
  · rw [if_neg hset] at hhash
    rw [Store.record_congr (congrFun hhash _), if_neg fun h => hset h.1]

/-- `updateUser2` keeps the other tables. -/
theorem updateUser2_table_of_ne (user data : Fields) {t : Table} (ht : t ≠ .opUser) :
    ((updateUser2 user data).run (exec w) s).2.table t = s.table t := by
  unfold updateUser2
  split
  · simp only [Prog.run_bind, Prog.run_call, exec, Prog.pure_eq_ret, Prog.run_ret]
    rw [updateUserMysql_table_of_ne w _ data ht, Store.hset_table]
  · rfl

theorem toBool_null : Value.null.toBool = false := rfl

/-- The rows after `updateUser2`. -/
theorem updateUser2_opUser (hok : ∀ n, w.mysqlOk n = true) (user data : Fields) :
    ((updateUser2 user data).run (exec w) s).2.table .opUser =
      if (data.get "unionid").toBool then (s.table .opUser).map (Store.updateRow data)
      else s.table .opUser := by
  unfold updateUser2
  split
  · simp only [Prog.run_bind, Prog.run_call, exec, Prog.pure_eq_ret, Prog.run_ret]
    rw [updateUserMysql_opUser w _ hok, Store.hset_table]
  · rename_i hset
    have hnull : data.get "unionid" = .null := by simpa [Fields.isset] using hset
    simp [hnull, toBool_null]

/-- The parts of the stores that hold users. -/
def StorePart.Users (q : StorePart) : Prop :=
  q = .hash .user ∨ q = .hash .userno2unionid ∨ q = .table .opUser

/-- `updateUser` writes records, rows and user numbers only. -/
theorem updateUser_writes (data : Fields) : Handler.Writes StorePart.Users (updateUser data) := by
  refine Handler.Writes.ite ?_ (Handler.Writes.ret ())
  refine Handler.Writes.bind ((getUser_writes _).mono fun q hq => Or.inr (Or.inl hq)) fun user => ?_
  refine Handler.Writes.bind (Handler.Writes.issue (by simp [Cmd.part, StorePart.Users])) fun _ => ?_
  exact Handler.Writes.bind ((updateUserMysql_writes data).mono fun q hq => Or.inr (Or.inr hq))
    fun _ => Handler.Writes.ret ()

/-- `updateUser` is `updateUser2` with a fresh copy of the record. -/
theorem updateUser_run (data : Fields) (hset : data.isset "unionid" = true) :
    (updateUser data).run (exec w) s =
      (updateUser2 ((getUser (data.get "unionid")).run (exec w) s).1 data).run (exec w)
        ((getUser (data.get "unionid")).run (exec w) s).2 := by
  unfold updateUser updateUser2
  simp [hset, exec]

/-- Without a `unionid` it writes nothing. -/
theorem updateUser_run_of_unset (data : Fields) (hset : data.isset "unionid" = false) :
    (updateUser data).run (exec w) s = ((), s) := by
  unfold updateUser
  simp [hset]

/-- The records after `updateUser`. -/
theorem updateUser_record (data : Fields) (k : String) :
    ((updateUser data).run (exec w) s).2.record k =
      if data.isset "unionid" = true ∧ k = userKey (data.get "unionid") ∧ storableKey k then
        (((getUser (data.get "unionid")).run (exec w) s).1.merge data).jsonEncode
      else s.record k := by
  cases hset : data.isset "unionid" with
  | true =>
      rw [updateUser_run w s data hset, updateUser2_record, getUser_record, hset]
  | false =>
      rw [updateUser_run_of_unset w s data hset]
      simp

/-- `updateUser` keeps the other hashes. -/
theorem updateUser_hash_of_ne (data : Fields) {h : HashName} (hh : h ≠ .user)
    (hh' : h ≠ .userno2unionid) : ((updateUser data).run (exec w) s).2.hash h = s.hash h :=
  (updateUser_writes data).run_hash (by simp [StorePart.Users, hh, hh']) s

/-- `updateUser` keeps the other tables. -/
theorem updateUser_table_of_ne (data : Fields) {t : Table} (ht : t ≠ .opUser) :
    ((updateUser data).run (exec w) s).2.table t = s.table t :=
  (updateUser_writes data).run_table (by simp [StorePart.Users, ht]) s

/-- **A write of an accepted record.**  The fields of the record after `updateUser2`, for a copy
`user` that agrees with the stored record but for the number. -/
theorem updateUser2_get {user data : Fields} {k : String} (hset : data.isset "unionid" = true)
    (hk : userKey (data.get "unionid") = k) (hst : storableKey k) (huser : user.Encodable)
    (hdata : data.Encodable) (f : String) :
    (((updateUser2 user data).run (exec w) s).2.fieldsAt k).get f =
      if f ∈ data then data.get f else user.get f := by
  have hrecord := updateUser2_record w s user data k
  rw [if_pos ⟨hset, hk.symm, hst⟩, Fields.jsonEncode_of_encodable (huser.merge hdata)] at hrecord
  rw [Store.fieldsAt_of_record hrecord, Fields.get_merge]

/-- The fields of the record after `updateUser`: the data's, and else those it had.  Only the
number may be new. -/
theorem updateUser_get {data : Fields} {k : String} (hset : data.isset "unionid" = true)
    (hk : userKey (data.get "unionid") = k) (hst : storableKey k) (hdata : data.Encodable)
    {f : String} (hf : f ≠ "userno") :
    (((updateUser data).run (exec w) s).2.fieldsAt k).get f =
      if f ∈ data then data.get f else (s.fieldsAt k).get f := by
  have hfound := getUser_found w s (data.get "unionid")
  rw [updateUser_run w s data hset, updateUser2_get w _ hset hk hst hfound.encodable hdata,
    hfound.get f hf, ← hk]
  rfl

/-- Other users' records stay. -/
theorem updateUser_record_of_ne {data : Fields} {k : String}
    (hk : k ≠ userKey (data.get "unionid")) :
    ((updateUser data).run (exec w) s).2.record k = s.record k := by
  rw [updateUser_record, if_neg fun h => hk h.2.1]

/-- The record a write leaves is there. -/
theorem updateUser_isSome {data : Fields} {k : String} (hdata : data.Encodable)
    (h : (s.record k).isSome = true) :
    (((updateUser data).run (exec w) s).2.record k).isSome = true := by
  rw [updateUser_record]
  split
  · rw [Fields.jsonEncode_of_encodable ((getUser_found w s _).encodable.merge hdata)]
    rfl
  · exact h

end Update

/-! ## Registration -/

section Register

variable (w : World) (s : Store) (now : ℕ)

/-- The fields of a new record that `addUser` sets itself. -/
theorem newUser_get {user : Fields} {f : String} :
    (newUser now user).get f =
      if f ∈ "todayRechargeVal" :: (registrationFields now (user.get "unionid")).map Prod.fst then
        (Fields.ofList (("todayRechargeVal", .num 0) ::
          registrationFields now (user.get "unionid"))).get f
      else user.get f := by
  rw [newUser, Fields.get_merge]
  simp only [Fields.mem_ofList, List.map_cons]

/-- A new record is that of its `unionid`. -/
theorem newUser_unionid {user : Fields} : (newUser now user).get "unionid" = user.get "unionid" := by
  rw [newUser_get, if_neg (by simp [registrationFields])]

/-- A new record can be written if the data can. -/
theorem newUser_encodable {user : Fields} (h : user.Encodable) : (newUser now user).Encodable :=
  h.merge (Fields.encodable_ofList (by simp [registrationFields, Fields.encodable]))

/-- The number `addUser` gives to a user. -/
def nextUserno (s : Store) : ℚ := (s.hash .user).entries.length + 1 + 100000

/-- The record `addUser` stores. -/
def registered (now : ℕ) (user : Fields) (s : Store) : Fields :=
  (newUser now user).set "userno" (.num (nextUserno s))

/-- Only the number is added to a new record. -/
theorem registered_get_of_ne {user : Fields} {f : String} (hf : f ≠ "userno") :
    (registered now user s).get f = (newUser now user).get f :=
  Fields.get_set_of_ne hf

/-- The record of a registered user is that of its `unionid`. -/
theorem registered_unionid {user : Fields} :
    (registered now user s).get "unionid" = user.get "unionid" :=
  (registered_get_of_ne s now (by decide)).trans (newUser_unionid now)

/-- A registered user has the next number. -/
theorem registered_userno {user : Fields} :
    (registered now user s).get "userno" = .num (nextUserno s) :=
  Fields.get_set_self

/-- The record of a registered user can be written if the data can. -/
theorem registered_encodable {user : Fields} (h : user.Encodable) :
    (registered now user s).Encodable :=
  (newUser_encodable now h).set rfl

/-- `addUser_mysql` writes to `op_user` only. -/
theorem addUserMysql_writes (user : Fields) :
    Handler.Writes (· = .table .opUser) (addUserMysql now user) :=
  Handler.Writes.issue (by simp [Cmd.part])

/-- `addUser` writes the record and the entry of its number. -/
theorem addUser_hash (user : Fields) :
    ((addUser now user).run (exec w) s).2.hash =
      ((s.hset .user (userKey (user.get "unionid")) (registered now user s).jsonEncode).hset
        .userno2unionid (Value.num (nextUserno s)).text (user.get "unionid").text).hash := by
  unfold addUser
  simp only [Prog.run_bind, Prog.run_call, exec, Prog.pure_eq_ret, Prog.run_ret]
  rw [show ((newUser now user).set "userno" (.num ((s.hash .user).entries.length + 1 + 100000)))
    = registered now user s from rfl, registered_unionid, registered_userno]
  exact funext fun h => (addUserMysql_writes now _).run_hash (by simp) _

/-- The records after `addUser`. -/
theorem addUser_record (user : Fields) (k : String) :
    ((addUser now user).run (exec w) s).2.record k =
      if k = userKey (user.get "unionid") ∧ storableKey k then
        (registered now user s).jsonEncode
      else s.record k := by
  rw [Store.record_congr (congrFun (addUser_hash w s now user) _),
    Store.record_hset_of_ne (by decide), Store.record_hset]
  by_cases hk : k = userKey (user.get "unionid")
  · simp [hk]
  · simp [hk]

/-- The row `addUser` inserts. -/
def registeredRow (now : ℕ) (user : Fields) (s : Store) : Fields :=
  (registered now user s).merge (Fields.ofList
    (("totalGetRedPackVal", .num 0) :: registrationFields now (user.get "unionid")))

/-- The rows after `addUser`. -/
theorem addUser_opUser (hok : ∀ n, w.mysqlOk n = true) (user : Fields) :
    ((addUser now user).run (exec w) s).2.table .opUser =
      s.table .opUser ++ [registeredRow now user s] := by
  unfold addUser addUserMysql
  simp only [Prog.run_bind, Prog.run_call, exec, Prog.pure_eq_ret, Prog.run_ret, hok, if_true]
  rw [show ((newUser now user).set "userno" (.num ((s.hash .user).entries.length + 1 + 100000)))
    = registered now user s from rfl, registered_unionid]
  simp [Store.insertRow, registeredRow]

/-- `addUser` keeps the other tables. -/
theorem addUser_table_of_ne (user : Fields) {t : Table} (ht : t ≠ .opUser) :
    ((addUser now user).run (exec w) s).2.table t = s.table t := by
  unfold addUser
  simp only [Prog.run_bind, Prog.run_call, exec, Prog.pure_eq_ret, Prog.run_ret]
  rw [(addUserMysql_writes now _).run_table (by simpa using ht), Store.hset_table, Store.hset_table]

end Register

/-! ## The daily mark and the rewards of the back office -/

section Reward

variable (w : World) (s : Store) (now : ℕ)

/-- The mark of the day is the only thing written. -/
theorem isAddCoinToday_writes (unionid : Value) :
    Handler.Writes (· = .hash (.login ("login-" ++ Calendar.date now)))
      (isAddCoinToday now unionid) := by
  refine Handler.Writes.bind (Handler.Writes.issue (by simp [Cmd.part])) fun ret => ?_
  refine Handler.Writes.ite (Handler.Writes.ret _) ?_
  exact Handler.Writes.bind (Handler.Writes.issue (by simp [Cmd.part])) fun _ =>
    Handler.Writes.ret _

/-- So the records stay. -/
theorem isAddCoinToday_record (unionid : Value) (k : String) :
    ((isAddCoinToday now unionid).run (exec w) s).2.record k = s.record k :=
  Store.record_congr ((isAddCoinToday_writes now unionid).run_hash (by simp) s)

/-- The record after the pending rewards. -/
def rewarded (user : Fields) : Fields := rewardRedPack (rewardScore (rewardRoomCard user))

/-- The names of the fields that rewards change. -/
def rewardNames : List String :=
  ["roomCardNum", "add_roomCardNum", "score", "add_score", "rechargeVal", "redPackVal",
    "add_redPackVal"]

/-- A reward changes its own fields only. -/
theorem rewarded_get_of_notMem {user : Fields} {f : String} (hf : f ∉ rewardNames) :
    (rewarded user).get f = user.get f := by
  simp only [rewardNames, List.mem_cons, not_or] at hf
  obtain ⟨h1, h2, h3, h4, h5, h6, h7, -⟩ := hf
  have hcard : (rewardRoomCard user).get f = user.get f := by
    unfold rewardRoomCard
    split
    · rw [Fields.get_set_of_ne h2, Fields.get_set_of_ne h1]
    · rfl
  have hscore : (rewardScore (rewardRoomCard user)).get f = user.get f := by
    unfold rewardScore
    split
    · rw [Fields.get_set_of_ne h5, Fields.get_set_of_ne h4, Fields.get_set_of_ne h3, hcard]
    · exact hcard
  unfold rewarded rewardRedPack
  split
  · rw [Fields.get_set_of_ne h7, Fields.get_set_of_ne h6, hscore]
  · exact hscore

/-- Whether a reward is pending depends on its field only. -/
theorem pendingReward_congr {user user' : Fields} {f : String} (h : user'.get f = user.get f) :
    pendingReward user' f = pendingReward user f := by
  unfold pendingReward Fields.isset
  rw [h]

/-- Room cards that are handed out do not change whether a score is pending. -/
theorem pendingReward_rewardRoomCard (user : Fields) :
    pendingReward (rewardRoomCard user) "add_score" = pendingReward user "add_score" := by
  refine pendingReward_congr ?_
  unfold rewardRoomCard
  split
  · rw [Fields.get_set_of_ne (by decide), Fields.get_set_of_ne (by decide)]
  · rfl

/-- Only a reward of score counts as a recharge. -/
theorem rewarded_rechargeVal {user : Fields} (h : pendingReward user "add_score" = false) :
    (rewarded user).get "rechargeVal" = user.get "rechargeVal" := by
  have hcard : (rewardRoomCard user).get "rechargeVal" = user.get "rechargeVal" := by
    unfold rewardRoomCard
    split
    · rw [Fields.get_set_of_ne (by decide), Fields.get_set_of_ne (by decide)]
    · rfl
  unfold rewarded rewardRedPack rewardScore
  rw [pendingReward_rewardRoomCard, h, if_neg Bool.false_ne_true]
  split
  · rw [Fields.get_set_of_ne (by decide), Fields.get_set_of_ne (by decide), hcard]
  · exact hcard

/-- A rewarded record keeps its `unionid`. -/
theorem rewarded_unionid (user : Fields) : (rewarded user).get "unionid" = user.get "unionid" :=
  rewarded_get_of_notMem (by decide)

/-- A rewarded record can be written. -/
theorem rewarded_encodable {user : Fields} (h : user.Encodable) : (rewarded user).Encodable := by
  have hcard : (rewardRoomCard user).Encodable := by
    unfold rewardRoomCard
    split
    · exact (h.set rfl).set rfl
    · exact h
  have hscore : (rewardScore (rewardRoomCard user)).Encodable := by
    unfold rewardScore
    split
    · exact ((hcard.set rfl).set rfl).set rfl
    · exact hcard
  unfold rewarded rewardRedPack
  split
  · exact (hscore.set rfl).set rfl
  · exact hscore

/-- The score log is the only table written. -/
theorem insertAddScoreLogMysql_writes (row : Fields) :
    Handler.Writes (· = .table .opScoreLog) (insertAddScoreLogMysql row) :=
  Handler.Writes.issue (by simp [Cmd.part])

/-- An entry that may be written goes to the score log. -/
theorem logScore_writes (b : Bool) (row : Fields) :
    Handler.Writes (· = .table .opScoreLog)
      (Handler.when b do let _ ← insertAddScoreLogMysql row) :=
  Handler.Writes.when (Handler.Writes.bind (insertAddScoreLogMysql_writes row) fun _ =>
    Handler.Writes.ret ())

/-- So the records stay. -/
theorem logScore_record (b : Bool) (row : Fields) (k : String) :
    (Prog.run (exec w) (Handler.when b do let _ ← insertAddScoreLogMysql row) s).2.record k =
      s.record k :=
  Store.record_congr ((logScore_writes b row).run_hash (by simp) s)

/-- A reward writes the caller's copy of the record. -/
theorem addUserReward_hash (user : Fields) :
    ((addUserReward now user).run (exec w) s).2.hash =
      if isAdd user then
        (s.hset .user (userKey (user.get "unionid")) (rewarded user).jsonEncode).hash
      else s.hash := by
  have hlog := fun b row => funext fun h => (logScore_writes b row).run_hash (w := w) (h := h)
    (by simp) s
  unfold addUserReward
  rw [Prog.run_bind]
  cases isAdd user with
  | false => exact hlog _ _
  | true =>
      simp only [Handler.when, if_true, Prog.run_bind, Prog.run_call, exec, Prog.pure_eq_ret,
        Prog.run_ret]
      rw [updateUserMysql_hash]
      exact Store.hset_hash_congr (hlog _ _)

/-- The records after `addUser_reward`. -/
theorem addUserReward_record (user : Fields) (k : String) :
    ((addUserReward now user).run (exec w) s).2.record k =
      if isAdd user = true ∧ k = userKey (user.get "unionid") ∧ storableKey k then
        (rewarded user).jsonEncode
      else s.record k := by
  have hhash := addUserReward_hash w s now user
  cases hadd : isAdd user with
  | false =>
      rw [hadd, if_neg Bool.false_ne_true] at hhash
      rw [Store.record_congr (congrFun hhash _), if_neg fun h => Bool.false_ne_true h.1]
  | true =>
      rw [hadd, if_pos rfl] at hhash
      rw [Store.record_congr (congrFun hhash _), Store.record_hset]
      by_cases hk : k = userKey (user.get "unionid")
      · simp [← hk]
      · simp [hk]

/-- What a reward tells MySQL. -/
theorem addUserReward_opUser (hok : ∀ n, w.mysqlOk n = true) (user : Fields) :
    ((addUserReward now user).run (exec w) s).2.table .opUser =
      if isAdd user = true ∧ (user.get "unionid").toBool = true then
        (s.table .opUser).map (Store.updateRow (rewardUpdateData (rewarded user)))
      else s.table .opUser := by
  have hunionid : (rewardUpdateData (rewarded user)).get "unionid" = user.get "unionid" := by
    simp [rewardUpdateData, Fields.get_ofList_cons, rewarded_unionid]
  unfold addUserReward
  rw [Prog.run_bind, ← (logScore_writes (pendingReward (rewardRoomCard user) "add_score")
    (addScoreLog now (rewardRoomCard user) ((rewardRoomCard user).get "add_score")
      (sumOf (rewardRoomCard user) "score" "add_score") "houtai")).run_table (w := w)
      (t := .opUser) (by simp) s]
  generalize (Prog.run (exec w) (Handler.when _ _) s).2 = s1
  cases isAdd user with
  | false => simp [Handler.when]
  | true =>
      simp only [Handler.when, if_true, Prog.run_bind, Prog.run_call, exec, Prog.pure_eq_ret,
        Prog.run_ret]
      rw [← rewarded, updateUserMysql_opUser w _ hok, hunionid, Store.hset_table]
      simp

end Reward

/-! ## Records and their keys -/

/-- Every record is stored under the key of its own `unionid`. -/
def Store.Keyed (s : Store) : Prop :=
  ∀ k o, s.record k = some o → userKey (o.get "unionid") = k

/-- A command that writes records only under the keys of their own `unionid`s. -/
def Cmd.Keyed (c : Cmd) : Prop :=
  ∀ k o, c = .hset .user k (some o) → userKey (o.get "unionid") = k

/-- A handler that writes records only under the keys of their own `unionid`s. -/
def Handler.Keyed {α : Type} (p : Handler α) : Prop := p.All Cmd.Keyed fun _ => True

/-- The empty store has no record under a wrong key. -/
theorem Store.empty_keyed : Store.empty.Keyed := by
  intro k o h
  cases h

/-- A command that writes records under their own keys keeps it so. -/
theorem exec_keyed {w : World} {c : Cmd} {s : Store} (hc : c.Keyed) (hs : s.Keyed) :
    (exec w c s).2.Keyed := by
  intro k o hrecord
  by_cases hpart : c.part = some (.hash .user)
  · cases c with
    | hset h key val =>
        cases hpart
        rw [exec, Store.record_hset] at hrecord
        split at hrecord
        · rename_i hk
          subst hrecord
          exact (hc key o rfl).trans hk.1.symm
        · exact hs k o hrecord
    | _ => cases hpart
  · exact hs k o ((Store.record_congr (exec_hash_of_part hpart)).symm.trans hrecord)

namespace Handler

variable {α β : Type} {p : Handler α}

/-- A run of a keyed handler keeps it so. -/
theorem Keyed.run (hp : Handler.Keyed p) {w : World} {s : Store} (hs : s.Keyed) :
    (p.run (exec w) s).2.Keyed :=
  hp.run_inv (fun _ _ hc hs => exec_keyed hc hs) hs

theorem Keyed.bind {f : α → Handler β} (hp : Handler.Keyed p) (hf : ∀ a, Handler.Keyed (f a)) :
    Handler.Keyed (p >>= f) :=
  Prog.All.bind hp fun a _ => hf a

theorem Keyed.ite {b : Prop} [Decidable b] {q : Handler α} (hp : Handler.Keyed p)
    (hq : Handler.Keyed q) : Handler.Keyed (if b then p else q) :=
  Prog.All.ite (fun _ => hp) fun _ => hq

theorem Keyed.when {b : Bool} {q : Handler Unit} (hq : Handler.Keyed q) :
    Handler.Keyed (Handler.when b q) :=
  Keyed.ite hq trivial

/-- A handler that writes no record. -/
theorem Writes.keyed {Q : StorePart → Prop} (hp : Handler.Writes Q p) (hQ : ¬ Q (.hash .user)) :
    Handler.Keyed p := by
  refine Prog.All.mono (hp.avoids hQ) (fun c hc k o h => ?_) fun _ h => h
  subst h
  exact absurd rfl hc

/-- A quiet handler writes no record at all. -/
theorem Quiet.keyed (hp : Handler.Quiet p) : Handler.Keyed p := Writes.keyed hp fun h => h

/-- `getUser` writes no record. -/
theorem keyed_getUser (u : Value) : Handler.Keyed (getUser u) :=
  (getUser_writes u).keyed (by simp)

/-- A write of an encoded record under the key of its `unionid`. -/
theorem keyed_hset {user : Fields} {k : String} (h : userKey (user.get "unionid") = k) :
    Handler.Keyed (issue (.hset .user k user.jsonEncode)) := by
  refine ⟨fun k' o heq => ?_, fun _ => trivial⟩
  simp only [Cmd.hset.injEq, heq_eq_eq, true_and] at heq
  rw [JsonObject.get, Fields.fields_of_jsonEncode heq.2, h, heq.1]

theorem keyed_updateUserMysql (data : Fields) : Handler.Keyed (updateUserMysql data) :=
  (updateUserMysql_writes data).keyed (by simp)

/-- Merged data that names the `unionid` decides it. -/
theorem merge_unionid {user data : Fields} (hset : data.isset "unionid" = true) :
    (user.merge data).get "unionid" = data.get "unionid" :=
  Fields.get_merge_of_mem (Fields.mem_of_get_ne_null (Fields.isset_eq_true.mp hset))

/-- `updateUser2` writes the record under its own key. -/
theorem keyed_updateUser2 (user data : Fields) : Handler.Keyed (updateUser2 user data) := by
  unfold updateUser2
  split
  · rename_i hset
    exact Keyed.bind (keyed_hset (by rw [merge_unionid hset])) fun _ =>
      Keyed.bind (keyed_updateUserMysql data) fun _ => trivial
  · trivial

/-- `updateUser` writes the record under its own key. -/
theorem keyed_updateUser (data : Fields) : Handler.Keyed (updateUser data) := by
  unfold updateUser
  split
  · rename_i hset
    exact Keyed.bind (keyed_getUser _) fun user =>
      Keyed.bind (keyed_hset (by rw [merge_unionid hset])) fun _ =>
        Keyed.bind (keyed_updateUserMysql data) fun _ => trivial
  · trivial

/-- `addUser` writes the record under its own key. -/
theorem keyed_addUser (now : ℕ) (user : Fields) : Handler.Keyed (addUser now user) := by
  refine Keyed.bind (quiet_issue (by simp [Cmd.part])).keyed fun size => ?_
  refine Keyed.bind (keyed_hset rfl) fun _ => ?_
  exact Keyed.bind (Writes.keyed (Q := (· = .hash .userno2unionid))
    (Writes.issue (by simp [Cmd.part])) (by simp)) fun _ =>
      Keyed.bind ((addUserMysql_writes now _).keyed (by simp)) fun _ => trivial

/-- `addUser_reward` writes the record under its own key. -/
theorem keyed_addUserReward (now : ℕ) (user : Fields) : Handler.Keyed (addUserReward now user) := by
  refine Keyed.bind ((logScore_writes _ _).keyed (by simp)) fun _ => ?_
  refine Keyed.bind (Keyed.when ?_) fun _ => trivial
  exact Keyed.bind (keyed_hset (by rw [← rewarded, rewarded_unionid])) fun _ =>
    Keyed.bind (keyed_updateUserMysql _) fun _ => trivial

end Handler

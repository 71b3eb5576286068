/-
# What the game server's and the login requests do to a user's record

The handlers mix writes of the record with work that no property of the records depends on.
`update_run` and `addRedpack_run` bring a request into the form: quiet work, then the writes that
matter.

`Holds k o` says that the record under the key `k` has the contents `o`, but for the number
(which `getUser` may invent).  The triples with `Holds` say how each method changes the
contents.
-/
import DoudizhuBackend.UserRecords
import DoudizhuBackend.CommandTriple

open Php GameData

/-! ## Quiet steps -/

/-- The two stores have the same hashes, the same rows of `op_user` and the same score log. -/
structure Store.SameUsers (s s' : Store) : Prop where
  hash : s'.hash = s.hash
  opUser : s'.table .opUser = s.table .opUser
  opScoreLog : s'.table .opScoreLog = s.table .opScoreLog

namespace Store.SameUsers

variable {s s' s'' : Store}

theorem refl (s : Store) : s.SameUsers s := ⟨rfl, rfl, rfl⟩

theorem trans (h : s.SameUsers s') (h' : s'.SameUsers s'') : s.SameUsers s'' :=
  ⟨h'.hash.trans h.hash, h'.opUser.trans h.opUser, h'.opScoreLog.trans h.opScoreLog⟩

/-- The same users have the same records. -/
theorem record (h : s.SameUsers s') (k : String) : s'.record k = s.record k :=
  Store.record_congr (congrFun h.hash _)

/-- And the same fields. -/
theorem fieldsAt (h : s.SameUsers s') (k : String) : s'.fieldsAt k = s.fieldsAt k :=
  Store.fieldsAt_congr (h.record k)

end Store.SameUsers

/-- A quiet handler keeps the users. -/
theorem Handler.Quiet.sameUsers {α : Type} {p : Handler α} (hp : Handler.Quiet p) (w : World)
    (s : Store) : s.SameUsers (p.run (exec w) s).2 :=
  ⟨hp.hash s, hp.opUser s, hp.opScoreLog s⟩

namespace GameServer

variable (w : World) (s : Store)

/-! ## `service_updateUser.php` -/

/-- The request is refused: it brings a red packet too early. -/
def refused (now : ℕ) (msg : UpdateMsg) (user : Fields) : Bool :=
  msg.userData.isset "redPackVal" && !coolDownOver now user

/-- The data after the red packet was cut. -/
def acceptedData (now : ℕ) (msg : UpdateMsg) (user : Fields) : Fields :=
  if msg.userData.isset "redPackVal" then cappedRedPack now user msg.userData.fields
  else msg.userData.fields

/-- The data that is merged into the record. -/
def storedData (now : ℕ) (msg : UpdateMsg) (user : Fields) : Fields :=
  if (acceptedData now msg user).isset "score" then
    (acceptedData now msg user).set "score"
      (.num (gameScore user (gameAddCoin user msg.roomResult)))
  else acceptedData now msg user

/-- The last writes of an accepted request. -/
def store (now : ℕ) (msg : UpdateMsg) (user : Fields) : Handler Reply := do
  Handler.when ((acceptedData now msg user).isset "score") do
    let _ ← insertAddScoreLogMysql (gameScoreLog now user (acceptedData now msg user))
  updateUser2 user (storedData now msg user)
  sendErrno 1000

/-- The page of the back office changes nothing here. -/
theorem rewardIntroducer_run (b : Bool) (unionid : Value) :
    (Handler.when b (Helper.rewardIntroducer unionid)).run (exec w) s = ((), s) := by
  cases b <;> rfl

/-- The end of the request: quiet work, then the last writes. -/
theorem finish_run (now : ℕ) (msg : UpdateMsg) (user : Fields) :
    ∃ s1, s.SameUsers s1 ∧
      (finish now user (acceptedData now msg user) (gameAddCoin user msg.roomResult)).run
        (exec w) s = (store now msg user).run (exec w) s1 := by
  unfold finish
  rw [Prog.run_bind]
  have hquiet : Handler.Quiet (Handler.when (isRedPackTurn (acceptedData now msg user)) do
      let _ ← addRedpackRecordMysql (redpackRecord now user
        ((acceptedData now msg user).get "coinVal")
        (.num (addedRedPack user (acceptedData now msg user)))
        ((acceptedData now msg user).get "playTurn"))) :=
    Handler.Writes.when (Handler.Writes.bind (Handler.quiet_addRedpackRecordMysql _) fun _ =>
      Handler.Writes.ret ())
  refine ⟨_, hquiet.sameUsers w s, ?_⟩
  unfold store settleScore storedData Handler.when
  split <;> simp

/-- **An update after the roll-over**: quiet work, and then a refusal or the last writes. -/
theorem update_run (now : ℕ) (msg : UpdateMsg) (user : Fields) :
    ∃ s1, s.SameUsers s1 ∧ (update now msg user).run (exec w) s =
      if refused now msg user then (.send 1001 ∅, s1) else (store now msg user).run (exec w) s1 := by
  have hresult := (Handler.quiet_recordRoomResult now (msg.userData.get "unionid")
    msg.roomResult).sameUsers w s
  unfold update
  simp only [Prog.run_bind]
  cases hred : msg.userData.isset "redPackVal" with
  | true =>
      cases hcool : coolDownOver now user with
      | true =>
          have haccepted : acceptedData now msg user = cappedRedPack now user msg.userData.fields :=
            if_pos hred
          obtain ⟨s1, hs1, hrun⟩ := finish_run w
            (((recordRedPack user (cappedRedPack now user msg.userData.fields)
              msg.roomResult).run (exec w) _).2) now msg user
          refine ⟨s1, (hresult.trans ((Handler.quiet_recordRedPack _ _ _).sameUsers w _)).trans hs1, ?_⟩
          rw [haccepted] at hrun
          simp [refused, hred, hcool, hrun]
      | false =>
          exact ⟨_, hresult, by simp [refused, hred, hcool, sendErrno]⟩
  | false =>
      have haccepted : acceptedData now msg user = msg.userData.fields := by
        simp [acceptedData, hred]
      obtain ⟨s1, hs1, hrun⟩ := finish_run w _ now msg user
      refine ⟨s1, hresult.trans hs1, ?_⟩
      rw [haccepted] at hrun
      simp [refused, hred, hrun]

/-! ## `cmd_addRedpack` -/

/-- The last writes of an accepted red packet. -/
def storeRedpack (now : ℕ) (msg : GatewayMsg) (user : Fields) : Handler Reply := do
  updateUser2 (user.setDefault "totalGetRedPackVal" (.num 0))
    (redpackData msg (user.setDefault "totalGetRedPackVal" (.num 0)))
  Handler.when (Value.looseLt (.num 0) (coinVal msg)) do
    let _ ← insertAddScoreLogMysql
      (addScoreLog now (user.setDefault "totalGetRedPackVal" (.num 0)) (coinVal msg)
        ((redpackData msg (user.setDefault "totalGetRedPackVal" (.num 0))).get "score") "redpack")
  sendErrno 1000

/-- `cmd_addRedpack`, past its notices: it stores the red packet if the cool-down is over. -/
theorem addRedpack_run (now : ℕ) (msg : GatewayMsg) (user : Fields) :
    ∃ s1, s.SameUsers s1 ∧ (addRedpack now msg user).run (exec w) s =
      if coolDownOver now user then (storeRedpack now msg user).run (exec w) s1
      else (.send 1001 ∅, s1) := by
  have hrecord := (Handler.quiet_addRedpackRecordMysql (redpackRecord now user
    (msg.fields.get "coinVal") (msg.fields.get "cashVal") (msg.fields.get "playTurn"))).sameUsers
    w s
  unfold addRedpack
  simp only [Prog.run_bind]
  cases hcool : coolDownOver now user with
  | true =>
      refine ⟨_, hrecord.trans ((Handler.quiet_addRedPackNotice user (cashVal msg).toNum).sameUsers
        w _), ?_⟩
      simp [storeRedpack]
  | false => exact ⟨_, hrecord, by simp [sendErrno]⟩

/-- The data of a red packet names the user of the message. -/
theorem redpackData_unionid (msg : GatewayMsg) (user : Fields) :
    (redpackData msg user).get "unionid" = msg.fields.get "unionid" := by
  simp [redpackData, Fields.get_ofList_cons]

/-- The data of a red packet can be encoded. -/
theorem redpackData_encodable (msg : GatewayMsg) (user : Fields) :
    (redpackData msg user).Encodable := by
  have hu := msg.fields.encodable_get "unionid"
  exact Fields.encodable_ofList (by simpa [Fields.encodable] using hu)

end GameServer

/-! ## The contents of one record -/

/-- The same array but for the number. -/
def Copy (user o : Fields) : Prop := ∀ f, f ≠ "userno" → user.get f = o.get f

/-- The record under the key `k` has the contents `o`, but for the number. -/
def Holds (k : String) (o : Fields) (s : Store) : Prop := Copy (s.fieldsAt k) o

/-- The data is for the record under `k`. -/
def Targets (k : String) (data : Fields) : Prop :=
  data.isset "unionid" = true ∧ userKey (data.get "unionid") = k

instance (k : String) (data : Fields) : Decidable (Targets k data) := by
  unfold Targets; infer_instance

section Contents

variable {w : World} {k : String} {o o' user data : Fields} {u : Value}

theorem Copy.refl (o : Fields) : Copy o o := fun _ _ => rfl

theorem Copy.trans (h : Copy user o) (h' : Copy o o') : Copy user o' :=
  fun f hf => (h f hf).trans (h' f hf)

/-- Merged data keeps a copy a copy. -/
theorem Copy.merge (h : Copy user o) : Copy (user.merge data) (o.merge data) := by
  intro f hf
  rw [Fields.get_merge, Fields.get_merge]
  split
  · rfl
  · exact h f hf

/-- A write to both keeps a copy a copy. -/
theorem Copy.set (h : Copy user o) (f : String) (v : Value) : Copy (user.set f v) (o.set f v) := by
  intro g hg
  rw [Fields.get_set, Fields.get_set]
  split
  · rfl
  · exact h g hg

/-- What holds depends on the record only. -/
theorem Holds.of_record {s s' : Store} (h : Holds k o s) (hrecord : s'.record k = s.record k) :
    Holds k o s' := by
  rwa [Holds, Store.fieldsAt_congr hrecord]

/-- `getUser` brings a copy of the record. -/
theorem getUser_holds : Prog.Triple (exec w) (Holds k o) (getUser u) fun user s =>
    Holds k o s ∧ user.Encodable ∧ (userKey u = k → Copy user o) := by
  intro s hs
  have hfound := getUser_found w s u
  refine ⟨hs.of_record (getUser_record w s u k), hfound.encodable, ?_⟩
  rintro rfl f hf
  exact (hfound.get f hf).trans (hs f hf)

/-- `updateUser2` replaces the contents by the caller's copy with the data. -/
theorem updateUser2_holds (hk : storableKey k) (huser : user.Encodable) (hdata : data.Encodable) :
    Prog.Triple (exec w) (Holds k o) (updateUser2 user data) fun _ =>
      Holds k (if Targets k data then user.merge data else o) := by
  intro s hs
  have hrecord := updateUser2_record w s user data k
  by_cases htarget : Targets k data
  · rw [if_pos ⟨htarget.1, htarget.2.symm, hk⟩,
      Fields.jsonEncode_of_encodable (huser.merge hdata)] at hrecord
    rw [if_pos htarget, Holds, Store.fieldsAt_of_record hrecord]
    exact Copy.refl _
  · rw [if_neg fun h => htarget ⟨h.1, h.2.1.symm⟩] at hrecord
    rw [if_neg htarget]
    exact hs.of_record hrecord

/-- `updateUser` merges the data into the contents. -/
theorem updateUser_holds (hk : storableKey k) (hdata : data.Encodable) :
    Prog.Triple (exec w) (Holds k o) (updateUser data) fun _ =>
      Holds k (if Targets k data then o.merge data else o) := by
  intro s hs
  cases hset : data.isset "unionid" with
  | false =>
      rw [if_neg fun h => Bool.false_ne_true (hset.symm.trans h.1),
        updateUser_run_of_unset w s data hset]
      exact hs
  | true =>
      obtain ⟨hs', huser, hcopy⟩ := getUser_holds (w := w) (u := data.get "unionid") s hs
      rw [updateUser_run w s data hset]
      have hwrite := updateUser2_holds (w := w) hk huser hdata _ hs'
      by_cases htarget : Targets k data
      · rw [if_pos htarget] at hwrite ⊢
        exact hwrite.trans (hcopy htarget.2).merge
      · rwa [if_neg htarget] at hwrite ⊢

/-! ## The roll-over -/

/-- A copy is due for a roll-over when the record is. -/
theorem rolloverDue_congr {now : ℕ} (h : Copy user o) :
    rolloverDue now user = rolloverDue now o := by
  rw [rolloverDue, h "lastLoginTime" (by decide), rolloverDue]

/-- The roll-over writes the same for a copy. -/
theorem rolloverData_congr {now : ℕ} (h : Copy user o) :
    rolloverData now u user = rolloverData now u o := by
  rw [rolloverData, h "loginDayCount" (by decide), rolloverData]

/-- The rolled-over copy is a copy of the rolled-over record. -/
theorem copy_rolledOver (h : Copy user o) : Copy (rolledOver user) (rolledOver o) := by
  unfold rolledOver
  rw [h "loginDayCount" (by decide)]
  exact ((h.set _ _).set _ _).set _ _

/-- A rolled-over record can be encoded. -/
theorem rolledOver_encodable (h : user.Encodable) : (rolledOver user).Encodable :=
  ((h.set rfl).set rfl).set rfl

/-- What the roll-over writes can be encoded. -/
theorem rolloverData_encodable (now : ℕ) (user : Fields) (hu : Fields.encodable u = true) :
    (rolloverData now u user).Encodable :=
  Fields.encodable_ofList (by simpa [Fields.encodable] using hu)

/-- What the roll-over writes names the user. -/
theorem rolloverData_unionid {now : ℕ} : (rolloverData now u user).get "unionid" = u := by
  simp [rolloverData, Fields.get_ofList_cons]

/-- The contents after the roll-over block. -/
def afterRollover (now : ℕ) (u : Value) (o : Fields) : Fields :=
  if rolloverDue now o then o.merge (rolloverData now u o) else o

/-- The copy of the contents the handler goes on with. -/
def copyAfterRollover (now : ℕ) (o : Fields) : Fields :=
  if rolloverDue now o then rolledOver o else o

/-- The names of the fields that the roll-over writes. -/
def rolloverNames : List String :=
  ["unionid", "lastLoginTime", "loginDayCount", "todayRedPackCount", "todayRechargeVal"]

/-- A roll-over changes its own fields only. -/
theorem afterRollover_get_of_notMem {now : ℕ} {f : String} (hf : f ∉ rolloverNames) :
    (afterRollover now u o).get f = o.get f := by
  unfold afterRollover
  split
  · exact Fields.get_merge_of_notMem fun h =>
      hf (by simpa [rolloverNames, rolloverData, Fields.mem_ofList] using h)
  · rfl

/-- In the copy it changes one field less: not `lastLoginTime`. -/
theorem copyAfterRollover_get_of_notMem {now : ℕ} {f : String}
    (hf : f ∉ ["loginDayCount", "todayRedPackCount", "todayRechargeVal"]) :
    (copyAfterRollover now o).get f = o.get f := by
  simp only [List.mem_cons, not_or] at hf
  unfold copyAfterRollover rolledOver
  split
  · rw [Fields.get_set_of_ne hf.2.2.1, Fields.get_set_of_ne hf.2.1, Fields.get_set_of_ne hf.1]
  · rfl

/-- The roll-over block, on a copy of the record. -/
theorem clearYesterdayData_holds {now : ℕ} (hk : storableKey k) (hu : userKey u = k)
    (hnull : u ≠ .null) (henc : Fields.encodable u = true) (huser : user.Encodable)
    (hcopy : Copy user o) :
    Prog.Triple (exec w) (Holds k o) (clearYesterdayData now u user) fun user' s =>
      user'.Encodable ∧ Copy user' (copyAfterRollover now o) ∧
        Holds k (afterRollover now u o) s := by
  unfold clearYesterdayData afterRollover copyAfterRollover
  rw [← rolloverDue_congr hcopy]
  cases rolloverDue now user with
  | false => exact .ret fun s hs => ⟨huser, hcopy, hs⟩
  | true =>
      have htarget : Targets k (rolloverData now u user) := by
        rw [Targets, Fields.isset_eq_true, rolloverData_unionid]
        exact ⟨hnull, hu⟩
      refine .bind (updateUser_holds hk (rolloverData_encodable now user henc)) fun _ => .ret fun s hs => ?_
      rw [if_pos htarget, rolloverData_congr hcopy] at hs
      exact ⟨rolledOver_encodable huser, copy_rolledOver hcopy, hs⟩

/-- It keeps the records of other users. -/
theorem clearYesterdayData_record_of_ne {now : ℕ} (hu : userKey u ≠ k) (s : Store) :
    ((clearYesterdayData now u user).run (exec w) s).2.record k = s.record k := by
  unfold clearYesterdayData
  split
  · have hne : k ≠ userKey ((rolloverData now u user).get "unionid") := by
      rw [rolloverData_unionid]
      exact hu.symm
    rw [Prog.run_bind]
    exact updateUser_record_of_ne w s hne
  · rfl

end Contents

/-! ## `service_updateUser.php` and one record -/

namespace GameServer

section Stored

variable {now : ℕ} {msg : UpdateMsg} {user : Fields} {f : String}

/-- The checks change two fields of the data at most. -/
theorem acceptedData_get_of_ne (hval : f ≠ "redPackVal") (htime : f ≠ "getRedPackTime") :
    (acceptedData now msg user).get f = msg.userData.get f := by
  unfold acceptedData cappedRedPack
  split
  · rw [Fields.get_set_of_ne htime]
    split
    · exact Fields.get_set_of_ne hval
    · rfl
  · rfl

/-- And the score is recomputed. -/
theorem storedData_get_of_ne (hscore : f ≠ "score") :
    (storedData now msg user).get f = (acceptedData now msg user).get f := by
  unfold storedData
  split
  · exact Fields.get_set_of_ne hscore
  · rfl

/-- Accepted data can be encoded. -/
theorem acceptedData_encodable : (acceptedData now msg user).Encodable := by
  unfold acceptedData cappedRedPack
  split
  · refine Fields.Encodable.set ?_ rfl
    split
    · exact msg.userData.encodable.set rfl
    · exact msg.userData.encodable
  · exact msg.userData.encodable

/-- Stored data can be encoded. -/
theorem storedData_encodable (now : ℕ) (msg : UpdateMsg) (user : Fields) : (storedData now msg user).Encodable := by
  unfold storedData
  split
  · exact acceptedData_encodable.set rfl
  · exact acceptedData_encodable

/-- The accepted data names what the message names, and at most two fields more. -/
theorem mem_of_mem_acceptedData (h : f ∈ acceptedData now msg user) :
    f ∈ msg.userData.fields ∨ f ∈ ["redPackVal", "getRedPackTime"] := by
  unfold acceptedData cappedRedPack at h
  split at h
  · rw [Fields.mem_set] at h
    split at h
    · rw [Fields.mem_set] at h
      simp only [List.mem_cons]
      tauto
    · simp only [List.mem_cons]
      tauto
  · exact Or.inl h

/-- The stored data names one field more. -/
theorem mem_of_mem_storedData (h : f ∈ storedData now msg user) :
    f ∈ msg.userData.fields ∨ f ∈ ["redPackVal", "getRedPackTime", "score"] := by
  unfold storedData at h
  split at h
  · rw [Fields.mem_set] at h
    rcases h with rfl | h
    · exact Or.inr (by decide)
    · exact (mem_of_mem_acceptedData h).imp_right fun h => by simp at h ⊢; tauto
  · exact (mem_of_mem_acceptedData h).imp_right fun h => by simp at h ⊢; tauto

/-- The fields of the payload are stored. -/
theorem mem_storedData (h : f ∈ msg.userData.fields) : f ∈ storedData now msg user := by
  have haccepted : f ∈ acceptedData now msg user := by
    unfold acceptedData cappedRedPack
    split
    · refine Fields.mem_set.mpr (Or.inr ?_)
      split
      · exact Fields.mem_set.mpr (Or.inr h)
      · exact h
    · exact h
  unfold storedData
  split
  · exact Fields.mem_set.mpr (Or.inr haccepted)
  · exact haccepted

/-- Stored data names the user of the payload. -/
theorem storedData_unionid : (storedData now msg user).get "unionid" = msg.userData.get "unionid" := by
  rw [storedData_get_of_ne (by decide), acceptedData_get_of_ne (by decide) (by decide)]

end Stored

variable {w : World} {k : String} {o user : Fields} {now : ℕ} {msg : UpdateMsg}

/-- The last writes put the copy with the stored data into the record. -/
theorem store_holds (hk : storableKey k) (hu : userKey (msg.userData.get "unionid") = k)
    (hnull : msg.userData.get "unionid" ≠ .null) (huser : user.Encodable) :
    Prog.Triple (exec w) (Holds k o) (store now msg user) fun reply s =>
      reply = .send 1000 ∅ ∧ Holds k (user.merge (storedData now msg user)) s := by
  have htarget : Targets k (storedData now msg user) := by
    rw [Targets, Fields.isset_eq_true, storedData_unionid]
    exact ⟨hnull, hu⟩
  unfold store
  refine .bind (M := fun _ => Holds k o) ?_ fun _ =>
    .bind (updateUser2_holds hk huser (storedData_encodable now msg user)) fun _ => .ret fun s hs => ?_
  · intro s hs
    exact hs.of_record (logScore_record w s _ _ k)
  · rw [if_pos htarget] at hs
    exact ⟨rfl, hs⟩

/-- An update keeps the records of other users. -/
theorem store_record_of_ne (hu : userKey (msg.userData.get "unionid") ≠ k) (s : Store) :
    ((store now msg user).run (exec w) s).2.record k = s.record k := by
  unfold store
  simp only [Prog.run_bind]
  have hne : k ≠ userKey ((storedData now msg user).get "unionid") := by
    rw [storedData_unionid]
    exact hu.symm
  exact ((updateUser2_record w _ user _ k).trans (if_neg fun h => hne h.2.1)).trans
    (logScore_record w s _ _ k)

/-- **`service_updateUser.php` on its user's record.**  A refused request leaves what the
roll-over has written; an accepted one writes the copy it has, with the stored data. -/
theorem serviceUpdateUser_holds (now : ℕ) (hk : storableKey k) (hu : userKey (msg.userData.get "unionid") = k)
    (htrue : (msg.userData.get "unionid").toBool = true) :
    Prog.Triple (exec w) (Holds k o) (serviceUpdateUser now msg) fun reply s =>
      ∃ user, Copy user (copyAfterRollover now o) ∧
        if refused now msg user then
          reply = .send 1001 ∅ ∧ Holds k (afterRollover now (msg.userData.get "unionid") o) s
        else reply = .send 1000 ∅ ∧ Holds k (user.merge (storedData now msg user)) s := by
  have hnull : msg.userData.get "unionid" ≠ .null := by
    intro h
    rw [h] at htrue
    cases htrue
  unfold serviceUpdateUser
  rw [if_pos htrue]
  refine .bind getUser_holds fun user => .of_pre (fun s hs => hs.2) fun hread => ?_
  refine .bind (M := fun _ => Holds k o) ?_ fun _ => ?_
  · rintro s ⟨hs, -⟩
    rwa [rewardIntroducer_run]
  refine .bind (clearYesterdayData_holds hk hu hnull (msg.userData.encodable_get _) hread.1
    (hread.2 hu)) fun user => ?_
  rintro s ⟨huser, hcopy, hs⟩
  obtain ⟨s1, hsame, hrun⟩ := update_run w s now msg user
  have hs1 : Holds k (afterRollover now (msg.userData.get "unionid") o) s1 :=
    hs.of_record (hsame.record k)
  rw [hrun]
  refine ⟨user, hcopy, ?_⟩
  cases refused now msg user with
  | true => exact ⟨rfl, hs1⟩
  | false => exact store_holds hk hu hnull huser s1 hs1

/-- The reply depends on the red packet only. -/
theorem serviceUpdateUser_reply (htrue : (msg.userData.get "unionid").toBool = true) (s : Store) :
    ((serviceUpdateUser now msg).run (exec w) s).1 =
      if refused now msg (s.fieldsAt (userKey (msg.userData.get "unionid"))) then .send 1001 ∅
      else .send 1000 ∅ := by
  unfold serviceUpdateUser
  rw [if_pos htrue]
  simp only [Prog.run_bind]
  rw [rewardIntroducer_run]
  obtain ⟨s1, -, hrun⟩ := update_run w _ now msg _
  rw [hrun]
  have htime : ((clearYesterdayData now (msg.userData.get "unionid")
      ((getUser (msg.userData.get "unionid")).run (exec w) s).1).run (exec w)
      ((getUser (msg.userData.get "unionid")).run (exec w) s).2).1.get "getRedPackTime" =
      (s.fieldsAt (userKey (msg.userData.get "unionid"))).get "getRedPackTime" := by
    refine Eq.trans ?_ ((getUser_found w s _).get _ (by decide))
    unfold clearYesterdayData rolledOver
    split
    · simp [Fields.get_set]
    · rfl
  unfold refused coolDownOver
  rw [htime]
  split
  · rfl
  · simp only [store, Prog.run_bind]
    rfl

/-- Requests for other users leave the record alone. -/
theorem serviceUpdateUser_record_of_ne (hu : userKey (msg.userData.get "unionid") ≠ k) (s : Store) :
    ((serviceUpdateUser now msg).run (exec w) s).2.record k = s.record k := by
  unfold serviceUpdateUser
  split
  · simp only [Prog.run_bind]
    rw [rewardIntroducer_run]
    obtain ⟨s1, hsame, hrun⟩ := update_run w _ now msg _
    rw [hrun]
    split
    · rw [hsame.record, clearYesterdayData_record_of_ne hu, getUser_record]
    · rw [store_record_of_ne hu, hsame.record, clearYesterdayData_record_of_ne hu, getUser_record]
  · rfl

end GameServer

/-! ## `login.php` -/

/-- Whether something is pending depends on three fields. -/
theorem isAdd_congr {user o : Fields}
    (h : ∀ f ∈ ["add_roomCardNum", "add_score", "add_redPackVal"], user.get f = o.get f) :
    isAdd user = isAdd o := by
  unfold isAdd pendingReward Fields.isset
  rw [h "add_roomCardNum" (by decide), h "add_score" (by decide), h "add_redPackVal" (by decide)]

namespace Login

variable {o : Fields} {ip : Value} {msg : JsonObject}

/-- The login of a registered user is not refused. -/
def admits (msg : JsonObject) (o : Fields) : Bool :=
  (isType msg "weixin" ||
    if isType msg "my_login" then
      Value.looseEq (o.get "password") (msg.getD "password" (.str ""))
    else !isType msg "my_reg") && !switchedOff o

/-- The `errno` with which the login of a registered user is refused. -/
def entryRefusal (msg : JsonObject) (o : Fields) : Option ℕ :=
  if isType msg "weixin" then none
  else if isType msg "my_login" then
    if Value.looseEq (o.get "password") (msg.getD "password" (.str "")) then none else some 5001
  else if isType msg "my_reg" then some 5002
  else none

/-- The data of a login names the user of the message. -/
theorem userData_unionid : (userData ip msg).get "unionid" = msg.get "unionid" := by
  simp [userData, Fields.get_ofList_cons]

/-- And it is set if the message sets it. -/
theorem userData_isset (hset : msg.isset "unionid" = true) :
    (userData ip msg).isset "unionid" = true := by
  rw [Fields.isset_eq_true, userData_unionid]
  exact JsonObject.isset_eq_true.mp hset

/-- The fields that a login writes. -/
theorem mem_userData {f : String} : f ∈ userData ip msg ↔
    f ∈ ["unionid", "nickname", "sex", "headimgurl", "city", "ip", "password", "channel"] := by
  simp [userData, Fields.mem_ofList]

/-- Whether a user is switched off depends on one field. -/
theorem switchedOff_congr {user o : Fields} (h : user.get "loginSwitch" = o.get "loginSwitch") :
    switchedOff user = switchedOff o := by
  unfold switchedOff Fields.isset
  rw [h]

/-- A login is admitted if nothing speaks against it. -/
theorem admits_iff : admits msg o = true ↔ entryRefusal msg o = none ∧ switchedOff o = false := by
  unfold admits entryRefusal
  cases isType msg "weixin" <;> cases isType msg "my_login" <;> cases isType msg "my_reg" <;> simp

/-- A refusal is not answered with 1000. -/
theorem errno_of_entryRefusal {n : ℕ} (h : entryRefusal msg o = some n) : n ≠ 1000 := by
  unfold entryRefusal at h
  split at h
  · cases h
  · split at h
    · split at h
      · cases h
      · cases h; decide
    · split at h
      · cases h; decide
      · cases h

end Login

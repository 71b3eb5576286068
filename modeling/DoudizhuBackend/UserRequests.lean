/-
# Requests that keep users, numbers and rows together

This file is about runs of whole requests to all endpoints of `html/v0`.  `sound_step` says which
requests keep the invariant `Sound` of `UserStores.lean`.  Not all do: a request may write the
record of a user that was never registered, and it may write back a copy of a record that MySQL
was told other things about.  The conditions are `Proper`, `Numbered` and `Mirrored`;
`UserNumbers.lean` and `StoreMirror.lean` state the consequences.
-/
import DoudizhuBackend.GuardedRun
import DoudizhuBackend.PlainNumbers
import DoudizhuBackend.UserStores

open Php GameData

namespace UserStores

/-! ## The requests -/

/-- The requests to the endpoints of `html/v0`. -/
inductive Request where
  | login (ip : Value) (msg : JsonObject)
  | register (ip : Value) (msg : JsonObject)
  | addCoin (msg : JsonObject)
  | weixinPayNotify (rowdata : Option Fields)
  | getExchangeCode (msg : JsonObject)
  | getIntroducer (msg : JsonObject)
  | getUserData (msg : JsonObject)
  | bindMobile (msg : JsonObject)
  | getInviteReward (msg : JsonObject)
  | getRoomResults (msg : JsonObject)
  | getExchangeRecord (msg : JsonObject)
  | getNoticeList
  | gmSendRoomCard (msg : JsonObject)
  | gmBuyRoomCard (msg : JsonObject)
  | gmUpdateUser (msg : JsonObject)
  | gmIntroducerReward (msg : JsonObject)
  | gmGetUser (msg : JsonObject)
  | gmGetUserByUnionid (msg : JsonObject)
  | gmActivitySetting (msg : JsonObject)
  | serviceUpdateUser (msg : GameServer.UpdateMsg)
  | serviceGateWay (msg : GameServer.GatewayMsg)
  | serviceGetUser (msg : JsonObject)
  | serviceAddNotice (msg : JsonObject)
  | serviceSubRewardPool (msg : JsonObject)
  | serviceGetRewardPool
  | serviceGetActInfo
  | serviceGetRoomConfig

/-- A request and the time at which it is handled. -/
structure Arrival where
  now : ℕ
  request : Request

/-- What the server runs for the request. -/
def Arrival.handler (l : Arrival) : Handler Reply :=
  match l.request with
  | .login ip msg => Login.login l.now ip msg
  | .register ip msg => Login.register l.now ip msg
  | .addCoin msg => AddCoin.addCoin l.now msg
  | .weixinPayNotify rowdata => WeixinPay.weixinPayNotify rowdata
  | .getExchangeCode msg => Players.getExchangeCode l.now msg
  | .getIntroducer msg => Players.getIntroducer msg
  | .getUserData msg => Players.getUserData l.now msg
  | .bindMobile msg => Players.bindMobile msg
  | .getInviteReward msg => Players.getInviteReward msg
  | .getRoomResults msg => Players.getRoomResults msg
  | .getExchangeRecord msg => Players.getExchangeRecord msg
  | .getNoticeList => Players.getNoticeList
  | .gmSendRoomCard msg => Players.gmSendRoomCard msg
  | .gmBuyRoomCard msg => Players.gmBuyRoomCard msg
  | .gmUpdateUser msg => Players.gmUpdateUser msg
  | .gmIntroducerReward msg => Players.gmIntroducerReward msg
  | .gmGetUser msg => Players.gmGetUser msg
  | .gmGetUserByUnionid msg => Players.gmGetUserByUnionid msg
  | .gmActivitySetting msg => Players.gmActivitySetting msg
  | .serviceUpdateUser msg => GameServer.serviceUpdateUser l.now msg
  | .serviceGateWay msg => GameServer.serviceGateWay l.now msg
  | .serviceGetUser msg => GameServer.serviceGetUser msg
  | .serviceAddNotice msg => GameServer.serviceAddNotice msg
  | .serviceSubRewardPool msg => GameServer.serviceSubRewardPool msg
  | .serviceGetRewardPool => GameServer.serviceGetRewardPool
  | .serviceGetActInfo => GameServer.serviceGetActInfo
  | .serviceGetRoomConfig => GameServer.serviceGetRoomConfig

/-- The request is executed as a whole. -/
def step (w : World) (s : Store) (l : Arrival) : Store := (l.handler.run (exec w) s).2

/-- The numbers in the request are plain. -/
def Request.Plain : Request → Prop
  | .serviceUpdateUser msg => msg.Plain
  | .serviceGateWay msg => msg.Plain
  | .weixinPayNotify rowdata => ∀ data ∈ rowdata, data.Plain
  | .login _ msg | .register _ msg | .addCoin msg | .getExchangeCode msg | .getIntroducer msg
  | .getUserData msg | .bindMobile msg | .getInviteReward msg | .getRoomResults msg
  | .getExchangeRecord msg | .gmSendRoomCard msg | .gmBuyRoomCard msg | .gmUpdateUser msg
  | .gmIntroducerReward msg | .gmGetUser msg | .gmGetUserByUnionid msg | .gmActivitySetting msg
  | .serviceGetUser msg | .serviceAddNotice msg | .serviceSubRewardPool msg => msg.fields.Plain
  | .getNoticeList | .serviceGetRewardPool | .serviceGetActInfo | .serviceGetRoomConfig => True

instance (r : Request) : Decidable r.Plain := by
  unfold Request.Plain; split <;> infer_instance

/-- The numbers in the records and in the request are plain. -/
def PlainStep (s : Store) (l : Arrival) : Prop := s.Plain ∧ l.request.Plain

instance (s : Store) (l : Arrival) : Decidable (PlainStep s l) := inferInstanceAs (Decidable (_ ∧ _))

/-- The `unionid` for which the request calls `addUser`, if it does. -/
def registers (s : Store) (l : Arrival) : Option String :=
  match l.request with
  | .login _ msg =>
      if (s.record (userKey (msg.get "unionid"))).isNone &&
          (Login.isType msg "weixin" || Login.isType msg "my_reg") then
        some (msg.get "unionid").text
      else none
  | .register _ msg =>
      if (s.record (userKey (msg.get "unionid"))).isNone then some (msg.get "unionid").text
      else none
  | _ => none

/-! ## Login and registration -/

section Login

variable {view : View} {vs : List String} {s : Store} {w : World} {k : String} {user : Fields}
  {now : ℕ} {u ip : Value} {msg : JsonObject}

/-- A roll-over does not change whether a reward is pending. -/
theorem isAdd_rolledOver : isAdd (rolledOver user) = isAdd user := by
  refine isAdd_congr fun f hf => ?_
  simp only [List.mem_cons, List.not_mem_nil, or_false] at hf
  unfold rolledOver
  rcases hf with rfl | rfl | rfl <;> simp [Fields.get_set]

/-- The roll-over block; if rows are mirrored, no reward is pending when it writes. -/
theorem sound_clearYesterdayData (now : ℕ) (hs : Sound view vs s)
    (hok : view = .rows → ∀ n, w.mysqlOk n = true) (hcopy : CopyOf view s k user)
    (hu : userKey u = k) (henc : Fields.encodable u = true)
    (hguard : view = .rows → isAdd user = true → rolloverDue now user = false) :
    Sound view vs ((clearYesterdayData now u user).run (exec w) s).2 ∧
      CopyOf view ((clearYesterdayData now u user).run (exec w) s).2 k
        ((clearYesterdayData now u user).run (exec w) s).1 ∧
      (view = .rows → isAdd ((clearYesterdayData now u user).run (exec w) s).1 = true →
        (clearYesterdayData now u user).run (exec w) s = (user, s)) := by
  unfold clearYesterdayData
  cases hdue : rolloverDue now user with
  | false => exact ⟨hs, hcopy, fun _ _ => rfl⟩
  | true =>
      have hno : "userno" ∉ rolloverData now u user := by
        simp [rolloverData, Fields.mem_ofList]
      have hdata := rolloverData_encodable now user henc
      have hadd : view = .rows → isAdd (rolledOver user) = false := by
        intro hm
        rw [isAdd_rolledOver]
        cases hadd : isAdd user with
        | false => rfl
        | true => exact absurd (hguard hm hadd) (by simp [hdue])
      rw [if_pos rfl, Prog.run_bind, Prog.pure_eq_ret, Prog.run_ret]
      refine ⟨hs.updateUser hok hdata hno fun _ => ?_, hcopy.after_update hs hdata hno
        (rolledOver_encodable hcopy.encodable) ?_ hadd, fun hm h => ?_⟩
      · rw [rolloverData_unionid]
        exact hcopy.registered hu
      · intro f hf
        simp only [List.mem_cons, List.not_mem_nil, or_false] at hf
        unfold rolledOver
        rcases hf with rfl | rfl <;> simp [Fields.get_set]
      · exact absurd (hadd hm) (by simp [h])

/-- The daily mark is not set, and the score is low. -/
def topUpDue (s : Store) (now : ℕ) (u : Value) (user : Fields) : Bool :=
  !(((s.hash (.login ("login-" ++ Calendar.date now))).lookup u.text).getD .null).toBool &&
    Login.scoreLow user

/-- Whether the mark of the day is set. -/
theorem isAddCoinToday_result (w : World) (s : Store) (now : ℕ) (u : Value) :
    ((isAddCoinToday now u).run (exec w) s).1 =
      (((s.hash (.login ("login-" ++ Calendar.date now))).lookup u.text).getD .null).toBool := by
  unfold isAddCoinToday
  rw [Prog.run_bind, Prog.run_ite]
  split
  · rename_i h
    exact h.symm
  · rename_i h
    exact (Bool.not_eq_true _ ▸ h).symm

/-- The mark of the day is elsewhere. -/
theorem outside_isAddCoinToday (now : ℕ) (u : Value) : Handler.Writes Outside (isAddCoinToday now u) :=
  (isAddCoinToday_writes now u).mono fun q hq => by
    rw [hq]
    simp [Outside]

/-- What the top-up writes can be encoded. -/
theorem topUpData_encodable (henc : Fields.encodable u = true) : (Login.topUpData u).Encodable :=
  Fields.encodable_ofList (by simpa [Fields.encodable] using henc)

/-- The daily top-up; if rows are mirrored, no reward is pending when it writes. -/
theorem sound_dailyTopUp (now : ℕ) (hs : Sound view vs s)
    (hok : view = .rows → ∀ n, w.mysqlOk n = true) (hcopy : CopyOf view s k user)
    (hu : userKey u = k) (henc : Fields.encodable u = true)
    (hguard : view = .rows → isAdd user = true → topUpDue s now u user = false) :
    Sound view vs ((Login.dailyTopUp now u user).run (exec w) s).2 ∧
      CopyOf view ((Login.dailyTopUp now u user).run (exec w) s).2 k
        ((Login.dailyTopUp now u user).run (exec w) s).1.1 ∧
      (view = .rows → isAdd ((Login.dailyTopUp now u user).run (exec w) s).1.1 = true →
        ((Login.dailyTopUp now u user).run (exec w) s).1.1 = user) := by
  have hs1 := hs.outside (w := w) (outside_isAddCoinToday now u)
  have hcopy1 := hcopy.of_record (isAddCoinToday_record w s now u k)
  unfold Login.dailyTopUp
  rw [Prog.run_bind]
  split
  · exact ⟨hs1, hcopy1, fun _ _ => rfl⟩
  · rename_i hmark
    split
    · rename_i hlow
      have hadd : view = .rows → isAdd (user.set "score" (.num 24)) = false := by
        intro hm
        have hsame : isAdd (user.set "score" (.num 24)) = isAdd user := by
          refine isAdd_congr fun f hf => ?_
          simp only [List.mem_cons, List.not_mem_nil, or_false] at hf
          rcases hf with rfl | rfl | rfl <;> exact Fields.get_set_of_ne (by decide)
        rw [hsame]
        cases hpending : isAdd user with
        | false => rfl
        | true =>
            rw [isAddCoinToday_result] at hmark
            have hdue := hguard hm hpending
            rw [topUpDue, hlow, Bool.and_true, Bool.not_eq_false'] at hdue
            exact absurd hdue hmark
      have hno : "userno" ∉ Login.topUpData u := by simp [Login.topUpData, Fields.mem_ofList]
      have hdata := topUpData_encodable henc
      rw [Prog.run_bind, Prog.pure_eq_ret, Prog.run_ret]
      refine ⟨hs1.updateUser hok hdata hno fun _ => ?_, hcopy1.after_update hs1 hdata hno
        (hcopy.encodable.set rfl) ?_ hadd, fun hm h => ?_⟩
      · have hunionid : (Login.topUpData u).get "unionid" = u := by
          simp [Login.topUpData, Fields.get_ofList_cons]
        rw [hunionid]
        exact hcopy1.registered hu
      · intro f hf
        simp only [List.mem_cons, List.not_mem_nil, or_false] at hf
        rcases hf with rfl | rfl <;> exact Fields.get_set_of_ne (by decide)
      · exact absurd (hadd hm) (by simp [h])
    · exact ⟨hs1, hcopy1, fun _ _ => rfl⟩

/-- The reward, with the copy that has a default for `todayRechargeVal`. -/
theorem sound_reward (hs : Sound view vs s) (hok : view = .rows → ∀ n, w.mysqlOk n = true)
    (hcopy : CopyOf view s k user)
    (hguard : view = .rows → isAdd user = true →
      pendingReward user "add_score" = false ∧ user.isset "todayRechargeVal" = true) :
    Sound view vs
      ((addUserReward now (user.setDefault "todayRechargeVal" (.num 0))).run (exec w) s).2 := by
  obtain ⟨o, ho, hnum, hagrees⟩ := hcopy.record
  have hget : ∀ f, f ≠ "todayRechargeVal" →
      (user.setDefault "todayRechargeVal" (.num 0)).get f = user.get f := by
    intro f hf
    rw [Fields.get_setDefault, if_neg hf]
  have hadd : isAdd (user.setDefault "todayRechargeVal" (.num 0)) = isAdd user := by
    refine isAdd_congr fun f hf => hget f ?_
    rintro rfl
    exact absurd hf (by decide)
  refine hs.addUserReward hok ho (hcopy.encodable.setDefault rfl)
    (by rw [hget _ (by decide), hcopy.key]) ((hget _ (by decide)).trans hnum) fun hm h => ?_
  rw [hadd] at h
  obtain ⟨hscore, hset⟩ := hguard hm h
  rw [pendingReward_congr (hget _ (by decide)), Fields.setDefault, if_pos hset]
  exact ⟨hscore, hagrees hm h⟩

/-- What the second part of a login must avoid, if rows are mirrored: a reward of score, and any
reward after another write. -/
def RewardSafe (s : Store) (now : ℕ) (u : Value) (user : Fields) : Prop :=
  isAdd user = true → rolloverDue now user = false ∧ topUpDue s now u user = false ∧
    pendingReward user "add_score" = false ∧ user.isset "todayRechargeVal" = true

instance (s : Store) (now : ℕ) (u : Value) (user : Fields) : Decidable (RewardSafe s now u user) := by
  unfold RewardSafe; infer_instance

/-- An admitted login keeps the stores sound. -/
theorem sound_admitted (hs : Sound view vs s) (hok : view = .rows → ∀ n, w.mysqlOk n = true)
    (hcopy : CopyOf view s k user) (hu : userKey (msg.get "unionid") = k)
    (hguard : view = .rows → RewardSafe s now (msg.get "unionid") user) :
    Sound view vs ((Login.admitted now msg user).run (exec w) s).2 := by
  have henc := msg.encodable_get "unionid"
  obtain ⟨hs1, hcopy1, hsame1⟩ := sound_clearYesterdayData now hs hok hcopy hu henc
    fun hm h => (hguard hm h).1
  unfold Login.admitted
  simp only [Prog.run_bind, Prog.pure_eq_ret, Prog.run_ret]
  generalize (clearYesterdayData now (msg.get "unionid") user).run (exec w) s = r1 at *
  obtain ⟨hs2, hcopy2, hsame2⟩ := sound_dailyTopUp now hs1 hok hcopy1 hu henc
    fun hm h => by
      have hr1 := hsame1 hm h
      subst hr1
      exact (hguard hm h).2.1
  refine sound_reward hs2 hok hcopy2 fun hm h => ?_
  have hsame := hsame2 hm h
  rw [hsame] at h ⊢
  have hr1 := hsame1 hm h
  subst hr1
  exact (hguard hm h).2.2

/-- The fields that decide whether a reward is safe. -/
def rewardSafeNames : List String :=
  ["add_roomCardNum", "add_score", "add_redPackVal", "lastLoginTime", "score", "todayRechargeVal"]

/-- Whether a reward is safe depends on a few fields and the mark of the day. -/
theorem RewardSafe.congr {s' : Store} {user' : Fields} (h : RewardSafe s now u user)
    (hget : ∀ f ∈ rewardSafeNames, user'.get f = user.get f)
    (hhash : ∀ date, s'.hash (.login date) = s.hash (.login date)) :
    RewardSafe s' now u user' := by
  have hadd : isAdd user' = isAdd user :=
    isAdd_congr fun f hf => hget f (by revert f; decide)
  unfold RewardSafe topUpDue Login.scoreLow rolloverDue at *
  rw [hadd, pendingReward_congr (hget "add_score" (by decide)), Fields.isset,
    hget "todayRechargeVal" (by decide), hget "lastLoginTime" (by decide),
    hget "score" (by decide), hhash]
  exact h

/-- The first part of the login of a registered user. -/
theorem enter_run (hempty : user.isEmpty = false) :
    (Login.enter now ip msg user).run (exec w) s =
      if Login.isType msg "weixin" then
        (none, ((updateUser (Login.userData ip msg)).run (exec w) s).2)
      else (Login.entryRefusal msg user, s) := by
  unfold Login.enter Login.entryRefusal
  rw [hempty, if_neg Bool.false_ne_true]
  split
  · rw [Prog.run_bind]
    rfl
  · simp only [Prog.run_ite, Prog.pure_eq_ret, Prog.run_ret]
    split
    · split <;> rfl
    · split <;> rfl

/-- What the login goes on with after the first part. -/
theorem sound_reenter (hs : Sound view vs s) (hok : view = .rows → ∀ n, w.mysqlOk n = true)
    (hguard : view = .rows → ∀ o, s.record (userKey (msg.get "unionid")) = some o →
      Login.switchedOff o.fields = false → RewardSafe s now (msg.get "unionid") o.fields) :
    Sound view vs (Prog.run (exec w) (do
      let user ← getUser (msg.get "unionid")
      if user.isEmpty || Login.switchedOff user then sendErrno 1003
      else Login.admitted now msg user) s).2 := by
  rw [Prog.run_bind, hs.getUser_run]
  dsimp only
  split
  · exact hs
  · rename_i hin
    rw [hs.isEmpty_fieldsAt, Bool.not_eq_true, Bool.or_eq_false_iff, Option.isNone_eq_false_iff,
      Option.isSome_iff_exists] at hin
    obtain ⟨⟨o, ho⟩, hoff⟩ := hin
    rw [Store.fieldsAt_of_record ho] at hoff ⊢
    exact sound_admitted hs hok (hs.copyOf ho) rfl fun hm => hguard hm o ho hoff

/-- The data of a login does not name the total of the red packets. -/
theorem userData_total : (Login.userData ip msg).get "totalGetRedPackVal" = .null :=
  Fields.get_eq_null_of_notMem (by rw [Login.mem_userData]; decide)

/-- A new user has no rewards. -/
theorem isAdd_of_addUser {o : JsonObject} (hnone : s.record k = none)
    (ho : ((addUser now user).run (exec w) s).2.record k = some o) : isAdd o.fields = false := by
  rw [addUser_record] at ho
  split at ho
  · rw [Fields.fields_of_jsonEncode ho]
    have hget : ∀ f ∈ ["add_roomCardNum", "add_score", "add_redPackVal"],
        (registered now user s).get f = .num 0 := by
      intro f hf
      simp only [List.mem_cons, List.not_mem_nil, or_false] at hf
      rcases hf with rfl | rfl | rfl <;>
        simp [registered_get_of_ne, newUser_get, registrationFields, Fields.get_ofList_cons]
    simp [isAdd, pendingReward, hget]
  · rw [hnone] at ho
    cases ho

/-- What a login must keep to: the client's data can be encoded if it is
written. -/
def LoginProper (s : Store) (ip : Value) (msg : JsonObject) : Prop :=
  match s.record (userKey (msg.get "unionid")) with
  | some _ => Login.isType msg "weixin" = true → (Login.userData ip msg).encodes = true
  | none => (Login.isType msg "weixin" || Login.isType msg "my_reg") = true →
      (Login.userData ip msg).encodes = true ∧ storableKey (Value.num (nextUserno s)).text

instance (s : Store) (ip : Value) (msg : JsonObject) : Decidable (LoginProper s ip msg) := by
  unfold LoginProper; split <;> infer_instance

/-- What a login must keep to, for the rows: no user without a proper `unionid` is registered, and
no reward overwrites what MySQL was told before. -/
def LoginMirrored (s : Store) (now : ℕ) (msg : JsonObject) : Prop :=
  match s.record (userKey (msg.get "unionid")) with
  | some o => Login.admits msg o.fields = true → RewardSafe s now (msg.get "unionid") o.fields
  | none => (Login.isType msg "weixin" || Login.isType msg "my_reg") = true →
      Enrollable s (msg.get "unionid")

instance (s : Store) (now : ℕ) (msg : JsonObject) : Decidable (LoginMirrored s now msg) := by
  unfold LoginMirrored; split <;> infer_instance

/-- Nor the number. -/
theorem userno_notMem_userData : "userno" ∉ Login.userData ip msg := by
  rw [Login.mem_userData]
  decide

/-- A login after the update of a registered user's record. -/
theorem sound_login_update (hs : Sound view vs s)
    (hok : view = .rows → ∀ n, w.mysqlOk n = true) {o : JsonObject}
    (ho : s.record (userKey (msg.get "unionid")) = some o)
    (henc : (Login.userData ip msg).Encodable)
    (hguard : view = .rows → Login.switchedOff o.fields = false →
      RewardSafe s now (msg.get "unionid") o.fields) :
    Sound view vs (Prog.run (exec w) (do
      let user ← getUser (msg.get "unionid")
      if user.isEmpty || Login.switchedOff user then sendErrno 1003
      else Login.admitted now msg user)
      ((updateUser (Login.userData ip msg)).run (exec w) s).2).2 := by
  have hs1 : Sound view vs ((updateUser (Login.userData ip msg)).run (exec w) s).2 := by
    refine hs.updateUser hok henc userno_notMem_userData fun _ => ?_
    rw [Login.userData_unionid]
    exact fun _ => Option.isSome_of_eq_some ho
  refine sound_reenter hs1 hok fun hm o1 ho1 hoff => ?_
  -- the update names none of the fields that matter
  have hget : ∀ f ∈ "loginSwitch" :: rewardSafeNames, o1.fields.get f = o.fields.get f := by
    intro f hf
    have hnot : f ∉ Login.userData ip msg := by
      rw [Login.mem_userData]
      revert f
      decide
    rw [updateUser_record, hs.getUser_run] at ho1
    split at ho1
    · rw [Fields.fields_of_jsonEncode ho1, Fields.get_merge_of_notMem hnot, Login.userData_unionid,
        Store.fieldsAt_of_record ho]
    · rw [ho] at ho1
      cases ho1
      rfl
  have hswitch := Login.switchedOff_congr (hget _ List.mem_cons_self)
  refine (hguard hm (hswitch ▸ hoff)).congr (fun f hf => hget f (List.mem_cons_of_mem _ hf)) ?_
  intro date
  exact updateUser_hash_of_ne w s _ (by simp) (by simp)

/-- `login.php` keeps the stores sound. -/
theorem sound_login (now : ℕ) (hs : Sound view vs s) (hok : view = .rows → ∀ n, w.mysqlOk n = true)
    (hproper : LoginProper s ip msg) (hmirrored : view = .rows → LoginMirrored s now msg) :
    Sound view (vs ++ (registers s ⟨now, .login ip msg⟩).toList)
      ((Login.login now ip msg).run (exec w) s).2 := by
  unfold Login.login
  rw [Prog.run_bind, hs.getUser_run]
  dsimp only
  rw [Prog.run_bind]
  unfold LoginProper LoginMirrored at *
  cases hrecord : s.record (userKey (msg.get "unionid")) with
  | some o =>
      -- a known user: nothing is registered
      rw [hrecord] at hproper hmirrored
      have hempty : (s.fieldsAt (userKey (msg.get "unionid"))).isEmpty = false := by
        rw [hs.isEmpty_fieldsAt, hrecord]
        rfl
      have hnone : registers s ⟨now, .login ip msg⟩ = none := by simp [registers, hrecord]
      rw [hnone, Option.toList_none, List.append_nil, enter_run hempty,
        Store.fieldsAt_of_record hrecord]
      cases hweixin : Login.isType msg "weixin" with
      | true =>
          exact sound_login_update hs hok hrecord (Fields.encodes_iff.mp (hproper hweixin))
            fun hm hoff => hmirrored hm (Login.admits_iff.mpr ⟨if_pos hweixin, hoff⟩)
      | false =>
          rw [if_neg Bool.false_ne_true]
          cases hrefusal : Login.entryRefusal msg o.fields with
          | some errno => exact hs
          | none =>
              -- other types are refused or enter with the record as it is stored
              refine sound_reenter hs hok fun hm o' ho' hoff => ?_
              rw [hrecord] at ho'
              cases ho'
              exact hmirrored hm (Login.admits_iff.mpr ⟨hrefusal, hoff⟩)
  | none =>
      -- no record: only the types that register reach the store
      rw [hrecord] at hproper hmirrored
      have hempty : (s.fieldsAt (userKey (msg.get "unionid"))).isEmpty = true := by
        rw [hs.isEmpty_fieldsAt, hrecord]
        rfl
      unfold Login.enter
      rw [if_pos hempty]
      cases hin : Login.isType msg "weixin" || Login.isType msg "my_reg" with
      | false =>
          have hnone : registers s ⟨now, .login ip msg⟩ = none := by simp [registers, hin]
          rw [hnone, Option.toList_none, List.append_nil]
          exact hs
      | true =>
          have hsome : registers s ⟨now, .login ip msg⟩ = some (msg.get "unionid").text := by
            simp [registers, hrecord, hin]
          obtain ⟨henc, hnumber⟩ := hproper hin
          rw [← @Login.userData_unionid ip msg] at hrecord hmirrored hsome
          have hs1 := hs.addUser hok now hrecord (Fields.encodes_iff.mp henc) hnumber
            fun hm => ⟨userData_total, hmirrored hm hin⟩
          rw [hsome, Option.toList_some, if_pos rfl, Prog.run_bind]
          refine sound_reenter hs1 hok fun _ o ho _ hadd => ?_
          rw [isAdd_of_addUser (by rwa [Login.userData_unionid] at hrecord) ho] at hadd
          cases hadd

/-- What `register.php` must keep to. -/
def RegisterProper (s : Store) (ip : Value) (msg : JsonObject) : Prop :=
  (Login.registerData ip msg).encodes = true ∧
    (s.record (userKey (msg.get "unionid")) = none →
      storableKey (Value.num (nextUserno s)).text)

instance (s : Store) (ip : Value) (msg : JsonObject) : Decidable (RegisterProper s ip msg) := by
  unfold RegisterProper; infer_instance

/-- What `register.php` must keep to, for the rows. -/
def RegisterMirrored (s : Store) (msg : JsonObject) : Prop :=
  s.record (userKey (msg.get "unionid")) = none → Enrollable s (msg.get "unionid")

instance (s : Store) (msg : JsonObject) : Decidable (RegisterMirrored s msg) := by
  unfold RegisterMirrored; infer_instance

/-- The data of a registration names the user of the message. -/
theorem registerData_unionid (ip : Value) (msg : JsonObject) : (Login.registerData ip msg).get "unionid" = msg.get "unionid" := by
  simp [Login.registerData, Fields.get_ofList_cons]

/-- `register.php` keeps the stores sound. -/
theorem sound_register (hs : Sound view vs s) (hok : view = .rows → ∀ n, w.mysqlOk n = true)
    (hproper : RegisterProper s ip msg) (hmirrored : view = .rows → RegisterMirrored s msg) :
    Sound view (vs ++ (registers s ⟨now, .register ip msg⟩).toList)
      ((Login.register now ip msg).run (exec w) s).2 := by
  have henc := Fields.encodes_iff.mp hproper.1
  -- the last part only reads
  have hread : ∀ {vs' : List String} {s' : Store}, Sound view vs' s' →
      Sound view vs' (Prog.run (exec w) (do
        let user ← getUser (msg.get "unionid")
        if user.isEmpty then sendErrno 1003
        else pure (.send 1000 (Fields.ofList (Login.copied user
          ["unionid", "nickname", "sex", "headimgurl", "city", "roomCardNum", "score", "win", "lose",
           "ip"])))) s').2 := by
    intro vs' s' hs'
    rw [Prog.run_bind, hs'.getUser_run]
    dsimp only
    split <;> exact hs'
  unfold Login.register
  rw [Prog.run_bind, hs.getUser_run]
  dsimp only
  rw [hs.isEmpty_fieldsAt]
  cases hrecord : s.record (userKey (msg.get "unionid")) with
  | none =>
      have hsome : registers s ⟨now, .register ip msg⟩ = some (msg.get "unionid").text := by
        simp [registers, hrecord]
      have hmir := fun hm => hmirrored hm hrecord
      have hnumber := hproper.2 hrecord
      rw [← registerData_unionid ip msg] at hrecord hmir hsome
      rw [hsome, Option.isNone_none, if_pos rfl, Prog.run_bind]
      refine hread (hs.addUser hok now hrecord henc hnumber fun hm => ⟨?_, hmir hm⟩)
      exact Fields.get_eq_null_of_notMem (by simp [Login.registerData, Fields.mem_ofList])
  | some o =>
      have hnone : registers s ⟨now, .register ip msg⟩ = none := by simp [registers, hrecord]
      rw [hnone, Option.toList_none, List.append_nil, Option.isNone_some,
        if_neg Bool.false_ne_true, Prog.run_bind]
      refine hread (hs.updateUser hok henc (by simp [Login.registerData, Fields.mem_ofList])
        fun _ => ?_)
      rw [registerData_unionid]
      exact fun _ => Option.isSome_of_eq_some hrecord

end Login

/-! ## The players' requests -/

section Players

variable {view : View} {vs : List String} {s : Store} {w : World} {now : ℕ} {msg : JsonObject}

/-- The user of a nonempty answer of `getUser` is registered. -/
theorem Sound.registered (hs : Sound view vs s) {k : String}
    (h : (s.fieldsAt k).isEmpty = false) : ∃ o, s.record k = some o := by
  rw [hs.isEmpty_fieldsAt, Option.isNone_eq_false_iff, Option.isSome_iff_exists] at h
  exact h

/-- A user with a record is registered. -/
theorem registered_of_record {o : JsonObject} {u : Value} (h : s.record (userKey u) = some o) :
    Registered s u :=
  fun _ => Option.isSome_of_eq_some h

/-- A payment check writes payment records only. -/
theorem verify_writes (ch : AddCoin.Channel) (receipt : Value) (money : ℚ) :
    Handler.Writes (fun q => q = .hash .appstoreOrderidSet ∨ q = .hash .wexinOutTradeNoSet)
      (AddCoin.verify ch receipt money) := by
  cases ch with
  | appstore =>
      refine Handler.Writes.bind (Handler.Writes.issue (by simp [Cmd.part])) fun ret => ?_
      refine Handler.Writes.ite ?_ (Handler.Writes.ret _)
      refine Handler.Writes.bind (Handler.Writes.bind (Handler.Writes.issue (by simp [Cmd.part]))
        fun _ => Handler.Writes.ret _) fun val => ?_
      refine Handler.Writes.ite (Handler.Writes.ret _) ?_
      exact Handler.Writes.bind (Handler.Writes.issue (by simp [Cmd.part])) fun _ =>
        Handler.Writes.ret _
  | weixin =>
      refine Handler.Writes.bind (Handler.Writes.bind (Handler.Writes.issue (by simp [Cmd.part]))
        fun _ => Handler.Writes.ret _) fun record => ?_
      refine Handler.Writes.ite ?_ ?_
      · exact Handler.Writes.bind (Handler.Writes.issue (by simp [Cmd.part])) fun _ =>
          Handler.Writes.ret _
      · exact Handler.Writes.bind (Handler.Writes.issue (by simp [Cmd.part])) fun _ =>
          Handler.Writes.ret _
  | win32 => exact Handler.Writes.ret _

/-- The verification of a payment is elsewhere. -/
theorem outside_verify (ch : AddCoin.Channel) (receipt : Value) (money : ℚ) :
    Handler.Writes Outside (AddCoin.verify ch receipt money) :=
  (verify_writes ch receipt money).mono fun q hq => by rcases hq with rfl | rfl <;> decide

/-- The invariant, and a registered user. -/
def Good (view : View) (vs : List String) (u : Value) (s : Store) : Prop :=
  Sound view vs s ∧ Registered s u

section Triples

variable {α : Type} {p : Handler α} {u : Value} {data : Fields}

/-- What is elsewhere keeps the stores sound. -/
theorem sound_outside (hp : Handler.Writes Outside p) :
    Prog.Triple (exec w) (Sound view vs) p fun _ => Sound view vs :=
  fun _ hs => hs.outside hp

/-- And it keeps the user registered. -/
theorem good_outside (hp : Handler.Writes Outside p) :
    Prog.Triple (exec w) (Good view vs u) p fun _ => Good view vs u := by
  rintro s ⟨hs, hreg⟩
  refine ⟨hs.outside hp, fun hst => ?_⟩
  rw [Store.record_congr (hp.run_hash (by simp [Outside]) s)]
  exact hreg hst

/-- An update of a registered user keeps the stores sound. -/
theorem good_updateUser (hok : view = .rows → ∀ n, w.mysqlOk n = true) (hdata : data.Encodable)
    (hno : "userno" ∉ data) (hu : data.get "unionid" = u) :
    Prog.Triple (exec w) (Good view vs u) (updateUser data) fun _ => Sound view vs := by
  rintro s ⟨hs, hreg⟩
  exact hs.updateUser hok hdata hno fun _ => hu ▸ hreg

/-- An update keeps all users registered. -/
theorem registered_updateUser {v : Value} (hdata : data.Encodable) (hreg : Registered s v) :
    Registered ((updateUser data).run (exec w) s).2 v :=
  fun hst => updateUser_isSome w s hdata (hreg hst)

end Triples

/-- The credit of a payment keeps the stores sound. -/
theorem sound_credit (hok : view = .rows → ∀ n, w.mysqlOk n = true) {user : Fields} :
    Prog.Triple (exec w) (Good view vs (msg.get "unionid")) (AddCoin.credit now msg user)
      fun _ => Sound view vs := by
  have henc := msg.encodable_get "unionid"
  refine .bind (good_outside (outside_of_quiet (Handler.quiet_addRewardPool _))) fun _ => ?_
  refine .bind (good_outside ((insertAddScoreLogMysql_writes _).mono fun q hq => ?_)) fun _ => ?_
  · rw [hq]; decide
  refine .bind (good_updateUser hok ?_ ?_ ?_) fun _ => ?_
  · exact Fields.encodable_ofList (by simpa [Fields.encodable] using henc)
  · simp [AddCoin.updateData, Fields.mem_ofList]
  · simp [AddCoin.updateData, Fields.get_ofList_cons]
  refine .bind (sound_outside (outside_of_quiet (Handler.quiet_addToCounter _ _))) fun _ => ?_
  refine .bind (sound_outside (outside_of_quiet (Handler.quiet_sitePage _ _))) fun _ => ?_
  exact .bind (sound_outside (outside_of_quiet (Handler.quiet_addRechargeRecordMysql _))) fun _ =>
    .ret fun s hs => hs

/-- `addCoin.php` keeps the stores sound. -/
theorem sound_addCoin (now : ℕ) (msg : JsonObject) (hok : view = .rows → ∀ n, w.mysqlOk n = true) :
    Prog.Triple (exec w) (Sound view vs) (AddCoin.addCoin now msg) fun _ => Sound view vs := by
  unfold AddCoin.addCoin
  cases AddCoin.channel (msg.get "platform") with
  | none => exact .ret fun s hs => hs
  | some ch =>
      refine .bind (sound_outside (outside_verify ch _ _)) fun isValid s hs => ?_
      unfold AddCoin.settle
      rw [Prog.run_bind, hs.getUser_run]
      dsimp only
      split
      · exact hs
      · rename_i hin
        rw [Bool.not_eq_true] at hin
        obtain ⟨o, ho⟩ := hs.registered hin
        split
        · exact sound_credit hok s ⟨hs, registered_of_record ho⟩
        · rw [Prog.run_bind]
          exact hs.outside (outside_of_quiet (Handler.quiet_addRechargeRecordMysql _))

/-- `weixinPayNotify.php` is elsewhere. -/
theorem outside_weixinPayNotify (rowdata : Option Fields) :
    Handler.Writes Outside (WeixinPay.weixinPayNotify rowdata) := by
  cases rowdata with
  | none => exact Handler.Writes.ret _
  | some row =>
      refine Handler.Writes.ite ?_ (Handler.Writes.ret _)
      refine Handler.Writes.bind (Handler.Writes.bind
        (Handler.Writes.issue (by simp [Cmd.part, Outside])) fun _ =>
          Handler.Writes.issue (by simp [Cmd.part, Outside])) fun _ => ?_
      exact Handler.Writes.bind (Handler.Writes.issue (by simp [Cmd.part, Outside])) fun _ =>
        Handler.Writes.ret _

/-- A handler that reads the record of a user and then changes no user. -/
theorem sound_getUser {u : Value} {f : Fields → Handler Reply}
    (hf : ∀ user, Handler.Writes Outside (f user)) :
    Prog.Triple (exec w) (Sound view vs) (getUser u >>= f) fun _ => Sound view vs := by
  intro s hs
  rw [Prog.run_bind, hs.getUser_run]
  exact hs.outside (hf _)

/-- The part of `getExchangeCode.php` after its checks. -/
theorem sound_exchange (hok : view = .rows → ∀ n, w.mysqlOk n = true) (o : JsonObject) :
    Prog.Triple (exec w) (Good view vs (o.get "unionid")) (do
      let exchangeCode ← Helper.getCode (o.fields.get "unionid") (msg.get "redPackMoney")
      if Value.looseEq exchangeCode (.str "") then sendErrno 1003
      else Players.debit now msg o.fields exchangeCode) fun _ => Sound view vs := by
  refine .bind (good_outside ?_) fun code => ?_
  · refine Handler.Writes.bind (Handler.Writes.issue (by simp [Cmd.part])) fun _ => ?_
    exact Handler.Writes.ite (Handler.Writes.ret _) (Handler.Writes.ret _)
  refine .ite (fun _ => .ret fun s hs => hs.1) fun _ => ?_
  refine .bind (good_updateUser hok ?_ ?_ ?_) fun _ => ?_
  · exact Players.exchangeData_encodable (o.encodable "unionid") _
  · exact fun h => absurd (Players.mem_of_mem_exchangeData h) (by decide)
  · rw [Players.exchangeData_unionid, JsonObject.get]
  · refine .bind (sound_outside (Handler.Writes.issue ?_)) fun _ => .ret fun s hs => hs
    simp [Cmd.part, Outside]

/-- `getExchangeCode.php` keeps the stores sound. -/
theorem sound_getExchangeCode (hok : view = .rows → ∀ n, w.mysqlOk n = true) :
    Prog.Triple (exec w) (Sound view vs) (Players.getExchangeCode now msg)
      fun _ => Sound view vs := by
  intro s hs
  unfold Players.getExchangeCode
  dsimp only
  split
  · rw [Prog.run_bind, hs.getUser_run]
    dsimp only
    split
    · exact hs
    · rename_i hrefusal
      have hin : (s.fieldsAt (userKey (msg.get "unionid"))).isEmpty = false := by
        rw [← Bool.not_eq_true]
        intro h
        simp [Players.exchangeRefusal, h] at hrefusal
      obtain ⟨o, ho⟩ := hs.registered hin
      rw [Store.fieldsAt_of_record ho]
      -- the debit is for the `unionid` in the record, which has the same key
      have hreg : Registered s (o.get "unionid") := by
        intro _
        rw [hs.keyed _ o ho, ho]
        rfl
      exact sound_exchange hok o s ⟨hs, hreg⟩
  · exact hs

/-! ## Rewards, invitations, room cards -/

/-- What `getUserData.php` must keep to, for the rows. -/
def UserDataMirrored (s : Store) (msg : JsonObject) : Prop :=
  isAdd (s.fieldsAt (userKey (msg.get "unionid"))) = true →
    pendingReward (s.fieldsAt (userKey (msg.get "unionid"))) "add_score" = false ∧
      (s.fieldsAt (userKey (msg.get "unionid"))).isset "todayRechargeVal" = true

instance (s : Store) (msg : JsonObject) : Decidable (UserDataMirrored s msg) := by
  unfold UserDataMirrored; infer_instance

/-- `getUserData.php` keeps the stores sound. -/
theorem sound_getUserData (now : ℕ) (msg : JsonObject) (hs : Sound view vs s) (hok : view = .rows → ∀ n, w.mysqlOk n = true)
    (hmirrored : view = .rows → UserDataMirrored s msg) :
    Sound view vs ((Players.getUserData now msg).run (exec w) s).2 := by
  unfold Players.getUserData
  rw [Prog.run_bind, hs.getUser_run]
  dsimp only
  split
  · exact hs
  · rename_i hin
    obtain ⟨o, ho⟩ := hs.registered (Bool.not_eq_true _ ▸ hin)
    unfold UserDataMirrored at hmirrored
    rw [Store.fieldsAt_of_record ho] at hmirrored ⊢
    rw [Prog.run_bind]
    exact sound_reward hs hok (hs.copyOf ho) hmirrored

/-- `bindMobile.php` keeps the stores sound. -/
theorem sound_bindMobile (hok : view = .rows → ∀ n, w.mysqlOk n = true) :
    Prog.Triple (exec w) (Sound view vs) (Players.bindMobile msg) fun _ => Sound view vs := by
  intro s hs
  unfold Players.bindMobile
  rw [Prog.run_bind, hs.getUser_run]
  dsimp only
  split
  · exact hs
  · rename_i hin
    obtain ⟨o, ho⟩ := hs.registered (Bool.not_eq_true _ ▸ hin)
    rw [Prog.run_bind]
    refine good_updateUser hok ?_ ?_ ?_ s ⟨hs, registered_of_record ho⟩
    · refine Fields.encodable_ofList ?_
      simpa using ⟨msg.encodable_get "unionid", msg.encodable_get "mobile"⟩
    · simp [Players.mobileData, Fields.mem_ofList]
    · simp [Players.mobileData, Fields.get_ofList_cons]

/-- The `unionid` that `userno2unionid` gives for a number. -/
def ownerOf (s : Store) (userno : Value) : Option String :=
  (s.hash .userno2unionid).lookup userno.text

/-- `getUnionid` only reads. -/
theorem getUnionid_run (userno : Value) :
    (getUnionid userno).run (exec w) s = (ownerOf s userno, s) := rfl

/-- The owner of a number is registered. -/
theorem Sound.owner (hs : Sound view vs s) {userno : Value} {t : String}
    (h : ownerOf s userno = some t) : Registered s (.str t) :=
  hs.mapped _ t h

/-- The reward for an invitation is granted. -/
def inviteGranted (s : Store) (msg : JsonObject) : Bool :=
  match ownerOf s (msg.get "targetUserno") with
  | none => false
  | some t =>
      !Value.looseEq (.str t) (msg.get "unionid") && (Value.str t).toBool &&
        (Players.inviteRefusal (s.fieldsAt (userKey (.str t)))).isNone &&
        Value.looseLt ((s.fieldsAt (userKey (msg.get "unionid"))).get "inviteTimes") (.num 30)

/-- What an invitation must keep to: the user who invites is registered. -/
def InviteProper (s : Store) (msg : JsonObject) : Prop :=
  inviteGranted s msg = true → msg.isset "unionid" = true → Registered s (msg.get "unionid")

instance (s : Store) (msg : JsonObject) : Decidable (InviteProper s msg) := by
  unfold InviteProper; infer_instance

/-- The rewards of an invitation keep the stores sound. -/
theorem sound_rewardInvite (hs : Sound view vs s) (hok : view = .rows → ∀ n, w.mysqlOk n = true)
    {u : Value} (henc : Fields.encodable u = true) {t : String} (ht : Registered s (.str t))
    (hreg : Value.looseLt ((s.fieldsAt (userKey u)).get "inviteTimes") (.num 30) = true →
      u ≠ .null → Registered s u) :
    Sound view vs ((Players.rewardInvite u t).run (exec w) s).2 := by
  unfold Players.rewardInvite
  rw [Prog.run_bind, hs.getUser_run]
  dsimp only
  split
  · rename_i htimes
    have hdata : (Players.inviterData u (s.fieldsAt (userKey u))).Encodable :=
      Fields.encodable_ofList (by simpa [Fields.encodable] using henc)
    have hunionid : (Players.inviterData u (s.fieldsAt (userKey u))).get "unionid" = u := by
      simp [Players.inviterData, Fields.get_ofList_cons]
    have hs1 := hs.updateUser (w := w) hok hdata
      (by simp [Players.inviterData, Fields.mem_ofList]) fun hset => by
        rw [hunionid]
        exact hreg htimes (hunionid ▸ Fields.isset_eq_true.mp hset)
    rw [Prog.run_bind, Prog.run_bind]
    refine hs1.updateUser hok ?_ ?_ fun _ => ?_
    · exact Fields.encodable_ofList (by simp [Fields.encodable])
    · simp [Players.invitedData, Fields.mem_ofList]
    · exact registered_updateUser hdata ht
  · exact hs

/-- What `getInviteReward.php` does after it looked up the number. -/
theorem getInviteReward_run :
    (Players.getInviteReward msg).run (exec w) s =
      if Value.looseEq ((ownerOf s (msg.get "targetUserno")).elim .null .str)
          (msg.get "unionid") then (.send 1007 ∅, s)
      else match ownerOf s (msg.get "targetUserno") with
        | none => (.send 1002 ∅, s)
        | some t =>
            if (Value.str t).toBool then
              Prog.run (exec w) (do
                let target ← getUser (.str t)
                match Players.inviteRefusal target with
                | some errno => sendErrno errno
                | none => Players.rewardInvite (msg.get "unionid") t) s
            else (.send 1002 ∅, s) := by
  unfold Players.getInviteReward
  rw [Prog.run_bind, getUnionid_run, Prog.run_ite]
  generalize ownerOf s (msg.get "targetUserno") = found
  cases found with
  | none => rfl
  | some t =>
      dsimp only
      rw [Prog.run_ite]
      rfl

/-- `getInviteReward.php` keeps the stores sound. -/
theorem sound_getInviteReward (hs : Sound view vs s)
    (hok : view = .rows → ∀ n, w.mysqlOk n = true) (hproper : InviteProper s msg) :
    Sound view vs ((Players.getInviteReward msg).run (exec w) s).2 := by
  rw [getInviteReward_run]
  unfold InviteProper inviteGranted at hproper
  split
  · exact hs
  · rename_i hself
    cases hfound : ownerOf s (msg.get "targetUserno") with
    | none => exact hs
    | some t =>
        rw [hfound] at hself hproper
        dsimp only [Option.elim] at hself hproper ⊢
        split
        · rename_i htrue
          rw [Prog.run_bind, hs.getUser_run]
          dsimp only
          split
          · exact hs
          · rename_i hrefusal
            refine sound_rewardInvite hs hok (msg.encodable_get _) (hs.owner hfound) ?_
            intro htimes hset
            refine hproper ?_ (JsonObject.isset_eq_true.mpr hset)
            rw [Bool.not_eq_true] at hself
            simp [hself, htrue, hrefusal, htimes]
        · exact hs

/-- A transfer of room cards passes the checks of `gm_sendRoomCard.php`. -/
def transferGranted (s : Store) (msg : JsonObject) : Bool :=
  (msg.get "sender_unionid").toBool &&
    !(s.fieldsAt (userKey ((ownerOf s (msg.get "receiver_userno")).elim .null .str))).isEmpty &&
    !decide (((s.fieldsAt (userKey (msg.get "sender_unionid"))).get "roomCardNum").toNum -
      (msg.get "room_card_num").toNum < 0)

/-- What a transfer must keep to: the sender is registered. -/
def TransferProper (s : Store) (msg : JsonObject) : Prop :=
  transferGranted s msg = true → Registered s (msg.get "sender_unionid")

instance (s : Store) (msg : JsonObject) : Decidable (TransferProper s msg) := by
  unfold TransferProper; infer_instance

/-- New room cards name their user. -/
theorem roomCardData_unionid {u : Value} {n : ℚ} :
    (Players.roomCardData u n).get "unionid" = u := by
  simp [Players.roomCardData, Fields.get_ofList_cons]

/-- New room cards can be encoded. -/
theorem roomCardData_encodable {u : Value} {n : ℚ} (hu : Fields.encodable u = true) :
    (Players.roomCardData u n).Encodable :=
  Fields.encodable_ofList (by simpa [Fields.encodable] using hu)

/-- New room cards for a registered user. -/
theorem sound_roomCard (hs : Sound view vs s) (hok : view = .rows → ∀ n, w.mysqlOk n = true)
    {u : Value} (hu : Fields.encodable u = true) (hreg : Registered s u) (n : ℚ) :
    Sound view vs ((updateUser (Players.roomCardData u n)).run (exec w) s).2 :=
  good_updateUser hok (roomCardData_encodable hu)
    (by simp [Players.roomCardData, Fields.mem_ofList]) roomCardData_unionid s ⟨hs, hreg⟩

/-- `gm_sendRoomCard.php` keeps the stores sound. -/
theorem sound_gmSendRoomCard (hs : Sound view vs s)
    (hok : view = .rows → ∀ n, w.mysqlOk n = true) (hproper : TransferProper s msg) :
    Sound view vs ((Players.gmSendRoomCard msg).run (exec w) s).2 := by
  unfold TransferProper transferGranted at hproper
  have henc : Fields.encodable
      ((ownerOf s (msg.get "receiver_userno")).elim .null Value.str) = true := by
    cases ownerOf s (msg.get "receiver_userno") <;> rfl
  unfold Players.gmSendRoomCard
  rw [Prog.run_bind, getUnionid_run]
  dsimp only
  rw [Prog.run_bind, hs.getUser_run]
  dsimp only
  rw [Prog.run_bind, hs.getUser_run]
  dsimp only
  generalize (ownerOf s (msg.get "receiver_userno")).elim .null Value.str = receiver at *
  rw [Prog.run_ite]
  split
  · exact hs
  · rename_i hin
    rw [Bool.not_eq_true, Bool.or_eq_false_iff, Bool.not_eq_false'] at hin
    rw [Prog.run_ite]
    split
    · exact hs
    · rename_i hcards
      obtain ⟨o, ho⟩ := hs.registered hin.2
      have hsender := hproper (by simp [hin, hcards])
      unfold Players.transferRoomCard
      rw [Prog.run_bind, Prog.run_bind]
      refine sound_roomCard ?_ hok henc ?_ _
      · exact sound_roomCard hs hok (msg.encodable_get _) hsender _
      · exact registered_updateUser (roomCardData_encodable (msg.encodable_get _))
          (registered_of_record ho)

/-- `gm_buyRoomCard.php` keeps the stores sound. -/
theorem sound_gmBuyRoomCard (hok : view = .rows → ∀ n, w.mysqlOk n = true) :
    Prog.Triple (exec w) (Sound view vs) (Players.gmBuyRoomCard msg)
      fun _ => Sound view vs := by
  intro s hs
  unfold Players.gmBuyRoomCard
  rw [Prog.run_bind, hs.getUser_run]
  dsimp only
  split
  · exact hs
  · rename_i hin
    obtain ⟨o, ho⟩ := hs.registered (Bool.not_eq_true _ ▸ hin)
    rw [Store.fieldsAt_of_record ho, Prog.run_bind]
    refine sound_roomCard hs hok (o.encodable "unionid") (fun _ => ?_) _
    rw [← JsonObject.get, hs.keyed _ o ho, ho]
    rfl

/-- `gm_updateUser.php` keeps the stores sound. -/
theorem sound_gmUpdateUser (hok : view = .rows → ∀ n, w.mysqlOk n = true) :
    Prog.Triple (exec w) (Sound view vs) (Players.gmUpdateUser msg)
      fun _ => Sound view vs := by
  intro s hs
  unfold Players.gmUpdateUser
  rw [Prog.run_bind, getUnionid_run, Prog.run_bind]
  dsimp only
  have hunionid : (Players.switchData msg (ownerOf s (msg.get "userno"))).get "unionid" =
      (ownerOf s (msg.get "userno")).elim .null .str := by
    simp [Players.switchData, Fields.get_ofList_cons]
  have hswitch := msg.encodable_get "loginSwitch"
  refine hs.updateUser hok ?_ (by simp [Players.switchData, Fields.mem_ofList]) fun hset => ?_
  · cases ownerOf s (msg.get "userno") <;>
      exact Fields.encodable_ofList (by simpa [Fields.encodable] using hswitch)
  · rw [Fields.isset_eq_true] at hset
    rw [hunionid] at hset ⊢
    cases hfound : ownerOf s (msg.get "userno") with
    | none =>
        rw [hfound] at hset
        exact absurd rfl hset
    | some t => exact hs.owner hfound

end Players

/-! ## The game server's requests -/

section GameServer

open GameServer

variable {view : View} {vs : List String} {s : Store} {w : World} {now : ℕ}

/-- The command writes the record of its user. -/
def gatewayWrites (now : ℕ) (msg : GatewayMsg) (user : Fields) : Bool :=
  if isCmd msg "cmd_addRedpack" then coolDownOver now user
  else if isCmd msg "cmd_submitGameResult" then
    !Value.looseEq (msg.fields.get "addCoin") (.num 0)
  else isCmd msg "cmd_costRoomCard"

/-- What a command must keep to: its user is registered if it writes. -/
def GatewayProper (s : Store) (now : ℕ) (msg : GatewayMsg) : Prop :=
  (msg.fields.get "unionid").toBool = true →
    gatewayWrites now msg (s.fieldsAt (userKey (msg.fields.get "unionid"))) = true →
      Registered s (msg.fields.get "unionid")

instance (s : Store) (now : ℕ) (msg : GatewayMsg) : Decidable (GatewayProper s now msg) := by
  unfold GatewayProper; infer_instance

/-- A command writes data that is not about the number, into the copy it just read. -/
theorem sound_command (hs : Sound view vs s) (hok : view = .rows → ∀ n, w.mysqlOk n = true)
    {data user : Fields} {u : Value} (hdata : data.Encodable) (hu : data.get "unionid" = u)
    (hno : "userno" ∉ data) (huser : user.Encodable)
    (hget : ∀ f, f ∉ data → user.get f = (s.fieldsAt (userKey u)).get f)
    (hreg : Registered s u) :
    Sound view vs ((updateUser2 user data).run (exec w) s).2 := by
  refine hs.updateUser2 hok hdata huser (fun _ => hu ▸ hreg) fun o ho => ?_
  rw [hu] at ho
  rw [Store.fieldsAt_of_record ho] at hget
  have hmerge : ∀ f, (user.merge data).get f = if f ∈ data then data.get f else o.get f := by
    intro f
    rw [Fields.get_merge]
    split
    · rfl
    · rename_i hf
      exact hget f hf
  refine ⟨hs.keepsNumber ho (by rw [hmerge, if_neg hno]), fun _ => ⟨fun f _ _ => hmerge f, ?_⟩⟩
  rw [hmerge]
  split <;> rfl

/-- A red packet keeps the stores sound. -/
theorem sound_addRedpack (hs : Sound view vs s) (hok : view = .rows → ∀ n, w.mysqlOk n = true)
    {msg : GatewayMsg}
    (hreg : coolDownOver now (s.fieldsAt (userKey (msg.fields.get "unionid"))) = true →
      Registered s (msg.fields.get "unionid")) :
    Sound view vs ((addRedpack now msg
      (s.fieldsAt (userKey (msg.fields.get "unionid")))).run (exec w) s).2 := by
  obtain ⟨s1, hsame, hrun⟩ := addRedpack_run w s now msg
    (s.fieldsAt (userKey (msg.fields.get "unionid")))
  have hs1 : Sound view vs s1 :=
    hs.congr (congrFun hsame.hash _) (congrFun hsame.hash _) fun _ => hsame.opUser
  rw [hrun]
  split
  · rename_i hcool
    have hdefault := (Store.fieldsAt_encodable (s := s) (k := userKey (msg.fields.get "unionid"))
      ).setDefault (k := "totalGetRedPackVal") (v := .num 0) rfl
    unfold storeRedpack
    rw [Prog.run_bind, Prog.run_bind]
    refine Sound.outside (p := Handler.when _ _) ?_ (outside_logScore _ _)
    refine sound_command hs1 hok (redpackData_encodable msg _) (redpackData_unionid msg _)
      (by simp [redpackData, Fields.mem_ofList]) hdefault (fun f hf => ?_) fun hst => ?_
    · have htotal : f ≠ "totalGetRedPackVal" := by
        rintro rfl
        exact hf (by simp [redpackData, Fields.mem_ofList])
      rw [Fields.get_setDefault, if_neg htotal, hsame.fieldsAt]
    · rw [hsame.record]
      exact hreg hcool hst
  · exact hs1

/-- A game result keeps the stores sound. -/
theorem sound_submitGameResult (hs : Sound view vs s)
    (hok : view = .rows → ∀ n, w.mysqlOk n = true) {msg : GatewayMsg}
    (hreg : (!Value.looseEq (msg.fields.get "addCoin") (.num 0)) = true →
      Registered s (msg.fields.get "unionid")) :
    Sound view vs ((submitGameResult now msg
      (s.fieldsAt (userKey (msg.fields.get "unionid")))).run (exec w) s).2 := by
  have hquiet : Handler.Quiet (Handler.when (!msg.roomResult.history.isEmpty)
      (insertRoomResult now (msg.fields.get "unionid") msg.roomResult)) :=
    Handler.Writes.when (Handler.quiet_pushBounded _ _ _)
  have hsame := hquiet.sameUsers w s
  have hs1 := hs.outside (w := w) (outside_of_quiet hquiet)
  unfold submitGameResult
  rw [Prog.run_bind, Prog.run_bind]
  unfold Handler.when at hsame hs1 ⊢
  generalize (Prog.run (exec w) (if !msg.roomResult.history.isEmpty then
    insertRoomResult now (msg.fields.get "unionid") msg.roomResult else pure ()) s).2 = s1 at *
  split
  · rename_i hcoin
    rw [Prog.run_bind]
    refine Sound.outside (p := _ >>= fun _ => pure ()) ?_ ?_
    · refine sound_command hs1 hok ?_ ?_ ?_ Store.fieldsAt_encodable
        (u := msg.fields.get "unionid") (fun f _ => by rw [hsame.fieldsAt]) fun hst => ?_
      · have hu := msg.fields.encodable_get "unionid"
        exact Fields.encodable_ofList (by simpa [Fields.encodable] using hu)
      · simp [gameResultData, Fields.get_ofList_cons]
      · simp [gameResultData, Fields.mem_ofList]
      · rw [hsame.record]
        exact hreg hcoin hst
    · exact Handler.Writes.bind ((insertAddScoreLogMysql_writes _).mono fun q hq => by
        rw [hq]; decide) fun _ => Handler.Writes.ret _
  · exact hs1

/-- `service_gateWay.php` keeps the stores sound. -/
theorem sound_serviceGateWay (hs : Sound view vs s)
    (hok : view = .rows → ∀ n, w.mysqlOk n = true) {msg : GatewayMsg}
    (hproper : GatewayProper s now msg) :
    Sound view vs ((serviceGateWay now msg).run (exec w) s).2 := by
  unfold GatewayProper gatewayWrites at hproper
  unfold serviceGateWay
  split
  · rename_i htrue
    have hreg := hproper htrue
    rw [Prog.run_bind, hs.getUser_run]
    dsimp only
    by_cases hred : isCmd msg "cmd_addRedpack" = true
    · rw [if_pos hred] at hreg ⊢
      exact sound_addRedpack hs hok hreg
    · rw [if_neg hred] at hreg ⊢
      by_cases hgame : isCmd msg "cmd_submitGameResult" = true
      · rw [if_pos hgame] at hreg ⊢
        exact sound_submitGameResult hs hok hreg
      · rw [if_neg hgame] at hreg ⊢
        split
        · rename_i hcost
          unfold costRoomCard
          rw [Prog.run_bind]
          refine sound_command hs hok ?_ ?_ ?_ Store.fieldsAt_encodable
            (u := msg.fields.get "unionid") (fun f _ => rfl) (hreg hcost)
          · have hu := msg.fields.encodable_get "unionid"
            exact Fields.encodable_ofList (by simpa [Fields.encodable] using hu)
          · simp [costRoomCardData, Fields.get_ofList_cons]
          · simp [costRoomCardData, Fields.mem_ofList]
        · exact hs
  · exact hs

/-- What an update must keep to: its user is registered, and the data does not take the number
away. -/
def UpdateProper (s : Store) (now : ℕ) (msg : UpdateMsg) : Prop :=
  (msg.userData.get "unionid").toBool = true →
    Registered s (msg.userData.get "unionid") ∧
      (refused now msg (s.fieldsAt (userKey (msg.userData.get "unionid"))) = false →
        "userno" ∈ msg.userData.fields → msg.userData.get "userno" ≠ .null)

instance (s : Store) (now : ℕ) (msg : UpdateMsg) : Decidable (UpdateProper s now msg) := by
  unfold UpdateProper; infer_instance

/-- What an update must keep to, for the numbers: the data brings no other number. -/
def UpdateNumbered (s : Store) (now : ℕ) (msg : UpdateMsg) : Prop :=
  (msg.userData.get "unionid").toBool = true →
    refused now msg (s.fieldsAt (userKey (msg.userData.get "unionid"))) = false →
      "userno" ∈ msg.userData.fields → (msg.userData.get "userno").text =
        ((s.fieldsAt (userKey (msg.userData.get "unionid"))).get "userno").text

instance (s : Store) (now : ℕ) (msg : UpdateMsg) : Decidable (UpdateNumbered s now msg) := by
  unfold UpdateNumbered; infer_instance

/-- What an update must keep to, for the rows: it does not write back a copy that the roll-over
has left without the new `lastLoginTime`. -/
def UpdateMirrored (s : Store) (now : ℕ) (msg : UpdateMsg) : Prop :=
  (msg.userData.get "unionid").toBool = true →
    refused now msg (s.fieldsAt (userKey (msg.userData.get "unionid"))) = false →
      rolloverDue now (s.fieldsAt (userKey (msg.userData.get "unionid"))) = true →
        "lastLoginTime" ∈ msg.userData.fields

instance (s : Store) (now : ℕ) (msg : UpdateMsg) : Decidable (UpdateMirrored s now msg) := by
  unfold UpdateMirrored; infer_instance

/-- The part of `service_updateUser.php` after the roll-over, with a copy that agrees with the
record outside of the data. -/
theorem sound_update (hs : Sound view vs s) (hok : view = .rows → ∀ n, w.mysqlOk n = true)
    {msg : UpdateMsg} {user : Fields} (huser : user.Encodable)
    (hreg : Registered s (msg.userData.get "unionid"))
    (hcopy : refused now msg user = false →
      ∀ o, s.record (userKey (msg.userData.get "unionid")) = some o →
        user.get "userno" = o.get "userno" ∧
        ("userno" ∈ msg.userData.fields →
          KeepsNumber view (o.get "userno") (msg.userData.get "userno")) ∧
        (view = .rows → ∀ f, f ≠ "unionid" → f ∉ msg.userData.fields → user.get f = o.get f)) :
    Sound view vs ((update now msg user).run (exec w) s).2 := by
  obtain ⟨s1, hsame, hrun⟩ := update_run w s now msg user
  have hs1 : Sound view vs s1 :=
    hs.congr (congrFun hsame.hash _) (congrFun hsame.hash _) fun _ => hsame.opUser
  rw [hrun]
  cases hrefused : refused now msg user with
  | true => exact hs1
  | false =>
      have hs2 := hs1.outside (w := w) (outside_logScore
        ((acceptedData now msg user).isset "score") (gameScoreLog now user (acceptedData now msg user)))
      rw [if_neg Bool.false_ne_true, store, Prog.run_bind, Prog.run_bind]
      have hrecord : ∀ k, (Prog.run (exec w) (Handler.when ((acceptedData now msg user).isset "score")
          do let _ ← insertAddScoreLogMysql (gameScoreLog now user (acceptedData now msg user)))
          s1).2.record k = s.record k :=
        fun k => (logScore_record w s1 _ _ k).trans (hsame.record k)
      refine hs2.updateUser2 hok (storedData_encodable now msg user) huser (fun _ hst => ?_) fun o ho => ?_
      · rw [storedData_unionid] at hst ⊢
        rw [hrecord]
        exact hreg hst
      · rw [storedData_unionid, hrecord] at ho
        obtain ⟨hno, hpayload, hget⟩ := hcopy hrefused o ho
        refine ⟨?_, fun hm => ⟨fun f hf _ => ?_, ?_⟩⟩
        · rw [Fields.get_merge]
          split
          · rename_i hmem
            rw [storedData_get_of_ne (by decide),
              acceptedData_get_of_ne (by decide) (by decide)]
            exact hpayload ((mem_of_mem_storedData hmem).resolve_right (by decide))
          · exact hs.keepsNumber ho hno
        · rw [Fields.get_merge]
          split
          · rfl
          · rename_i hmem
            exact hget hm f hf fun h => hmem (mem_storedData h)
        · rw [Fields.get_merge]
          split
          · rfl
          · rename_i hmem
            rw [hget hm _ (by decide) fun h => hmem (mem_storedData h)]
            rfl

/-- The copy after the roll-over differs from the record in `lastLoginTime` only. -/
theorem rolledOver_get {o : Fields} {u : Value} {f : String} (hf : f ≠ "unionid")
    (htime : f ≠ "lastLoginTime") :
    (rolledOver o).get f = (o.merge (rolloverData now u o)).get f := by
  rw [Fields.get_merge]
  unfold rolledOver
  split
  · rename_i hmem
    simp only [rolloverData, Fields.mem_ofList, List.map_cons, List.map_nil, List.mem_cons,
      List.not_mem_nil, or_false] at hmem
    rcases hmem with rfl | rfl | rfl | rfl | rfl
    · exact absurd rfl hf
    · exact absurd rfl htime
    all_goals simp [rolloverData, Fields.get_ofList_cons, Fields.get_set]
  · rename_i hmem
    simp only [rolloverData, Fields.mem_ofList, List.map_cons, List.map_nil, List.mem_cons,
      List.not_mem_nil, or_false, not_or] at hmem
    rw [Fields.get_set_of_ne hmem.2.2.2.2, Fields.get_set_of_ne hmem.2.2.2.1,
      Fields.get_set_of_ne hmem.2.2.1]

/-- A roll-over does not change whether an update is refused. -/
theorem refused_rolledOver {msg : UpdateMsg} {user : Fields} :
    refused now msg (rolledOver user) = refused now msg user := by
  unfold refused coolDownOver rolledOver
  rw [Fields.get_set_of_ne (by decide), Fields.get_set_of_ne (by decide),
    Fields.get_set_of_ne (by decide)]

/-- The record after the roll-over of a registered user. -/
theorem record_after_rollover (hs : Sound view vs s) {u : Value} (htrue : u.toBool = true)
    (hreg : Registered s u) {o' : JsonObject}
    (ho' : ((updateUser (rolloverData now u (s.fieldsAt (userKey u)))).run (exec w) s).2.record
      (userKey u) = some o') (f : String) :
    o'.get f = ((s.fieldsAt (userKey u)).merge
      (rolloverData now u (s.fieldsAt (userKey u)))).get f := by
  have hst := Store.storable_of_record ho'
  have hset : (rolloverData now u (s.fieldsAt (userKey u))).isset "unionid" = true := by
    rw [Fields.isset_eq_true, rolloverData_unionid]
    rintro rfl
    cases htrue
  rw [updateUser_record, rolloverData_unionid, hs.getUser_run, if_pos ⟨hset, rfl, hst⟩] at ho'
  rw [JsonObject.get, Fields.fields_of_jsonEncode ho']

/-- `service_updateUser.php` keeps the stores sound. -/
theorem sound_serviceUpdateUser (hs : Sound view vs s)
    (hok : view = .rows → ∀ n, w.mysqlOk n = true) {msg : UpdateMsg}
    (hproper : UpdateProper s now msg) (hnumbered : view = .numbers → UpdateNumbered s now msg)
    (hmirrored : view = .rows → UpdateMirrored s now msg) :
    Sound view vs ((serviceUpdateUser now msg).run (exec w) s).2 := by
  unfold serviceUpdateUser
  split
  · rename_i htrue
    obtain ⟨hreg, hset⟩ := hproper htrue
    -- the number in the data
    have hpayload : refused now msg (s.fieldsAt (userKey (msg.userData.get "unionid"))) = false →
        "userno" ∈ msg.userData.fields →
          KeepsNumber view ((s.fieldsAt (userKey (msg.userData.get "unionid"))).get "userno")
            (msg.userData.get "userno") :=
      fun hrefused hmem =>
        ⟨hset hrefused hmem, fun hv => hnumbered hv htrue hrefused hmem⟩
    replace hmirrored := fun hm => hmirrored hm htrue
    rw [Prog.run_bind, hs.getUser_run]
    dsimp only
    rw [Prog.run_bind, rewardIntroducer_run, Prog.run_bind]
    dsimp only
    unfold clearYesterdayData
    cases hdue : rolloverDue now (s.fieldsAt (userKey (msg.userData.get "unionid"))) with
    | false =>
        refine sound_update hs hok Store.fieldsAt_encodable hreg fun hrefused o ho => ?_
        rw [Store.fieldsAt_of_record ho] at hpayload hrefused ⊢
        exact ⟨rfl, hpayload hrefused, fun _ f _ _ => rfl⟩
    | true =>
        have hno : "userno" ∉ rolloverData now (msg.userData.get "unionid")
            (s.fieldsAt (userKey (msg.userData.get "unionid"))) := by
          simp [rolloverData, Fields.mem_ofList]
        have hdata := rolloverData_encodable now
          (s.fieldsAt (userKey (msg.userData.get "unionid")))
          (msg.userData.encodable_get "unionid")
        rw [if_pos rfl, Prog.run_bind, Prog.pure_eq_ret, Prog.run_ret]
        refine sound_update ?_ hok (rolledOver_encodable Store.fieldsAt_encodable)
          (registered_updateUser hdata hreg) fun hrefused o' ho' => ?_
        · refine hs.updateUser hok hdata hno fun _ => ?_
          rwa [rolloverData_unionid]
        · rw [refused_rolledOver] at hrefused
          replace hpayload := hpayload hrefused
          replace hmirrored := fun hm => hmirrored hm hrefused hdue
          have hget := record_after_rollover hs htrue hreg ho'
          have hno' : o'.get "userno" =
              (s.fieldsAt (userKey (msg.userData.get "unionid"))).get "userno" := by
            rw [hget, Fields.get_merge_of_notMem hno]
          refine ⟨?_, fun hmem => ?_, fun hm f hf hmem => ?_⟩
          · rw [hget]
            exact rolledOver_get (by decide) (by decide)
          · rw [hno']
            exact hpayload hmem
          · rw [hget]
            refine rolledOver_get hf ?_
            rintro rfl
            exact hmem (hmirrored hm)
  · exact hs

end GameServer

/-! ## All requests -/

/-- What a request must keep to: it writes records of registered users only, and nothing that JSON
cannot hold. -/
def Proper (s : Store) (l : Arrival) : Prop :=
  match l.request with
  | .login ip msg => LoginProper s ip msg
  | .register ip msg => RegisterProper s ip msg
  | .getInviteReward msg => InviteProper s msg
  | .gmSendRoomCard msg => TransferProper s msg
  | .serviceUpdateUser msg => UpdateProper s l.now msg
  | .serviceGateWay msg => GatewayProper s l.now msg
  | _ => True

/-- What a request must keep to, for the numbers. -/
def Numbered (s : Store) (l : Arrival) : Prop :=
  match l.request with
  | .serviceUpdateUser msg => UpdateNumbered s l.now msg
  | _ => True

/-- What a request must keep to, for the rows. -/
def Mirrored (s : Store) (l : Arrival) : Prop :=
  match l.request with
  | .login _ msg => LoginMirrored s l.now msg
  | .register _ msg => RegisterMirrored s msg
  | .getUserData msg => UserDataMirrored s msg
  | .serviceUpdateUser msg => UpdateMirrored s l.now msg
  | _ => True

instance (s : Store) (l : Arrival) : Decidable (Proper s l) := by
  unfold Proper; split <;> infer_instance

instance (s : Store) (l : Arrival) : Decidable (Numbered s l) := by
  unfold Numbered; split <;> infer_instance

instance (s : Store) (l : Arrival) : Decidable (Mirrored s l) := by
  unfold Mirrored; split <;> infer_instance

/-- The requests that neither read nor write a record. -/
def Request.Aside : Request → Prop
  | .getRoomResults _ | .getExchangeRecord _ | .getNoticeList | .gmActivitySetting _ => True
  | .serviceAddNotice _ | .serviceSubRewardPool _ | .serviceGetRewardPool => True
  | .serviceGetActInfo | .serviceGetRoomConfig => True
  | _ => False

/-- Requests that do not touch users are quiet. -/
theorem quiet_of_aside {l : Arrival} (h : l.request.Aside) : Handler.Quiet l.handler := by
  obtain ⟨now, request⟩ := l
  cases request with
  | serviceGetRoomConfig => exact Handler.Writes.ret _
  | serviceAddNotice msg =>
      exact Handler.Writes.bind (Handler.quiet_addNotice _ _) fun _ => Handler.Writes.ret _
  | serviceSubRewardPool msg =>
      exact Handler.Writes.bind (Handler.quiet_addRewardPool _) fun _ => Handler.Writes.ret _
  | gmActivitySetting msg =>
      refine Handler.Writes.ite (Handler.Writes.ret _) ?_
      refine Handler.Writes.bind (Handler.Writes.bind ?_ fun _ => ?_) fun _ => Handler.Writes.ret _
      · exact Handler.Writes.bind (Handler.quiet_issue (by simp [Cmd.part])) fun _ =>
          Handler.Writes.ret _
      · exact Handler.quiet_issue (by simp [Cmd.part, StorePart.Aux])
  | serviceGetActInfo =>
      refine Handler.Writes.bind (Handler.Writes.bind (Handler.quiet_issue (by simp [Cmd.part]))
        fun _ => Handler.Writes.ret _) fun _ => ?_
      exact Handler.Writes.bind (Handler.Writes.bind (Handler.quiet_issue (by simp [Cmd.part]))
        fun _ => Handler.Writes.ret _) fun _ => Handler.Writes.ret _
  | serviceGetRewardPool =>
      exact Handler.Writes.bind (Handler.Writes.bind (Handler.quiet_issue (by simp [Cmd.part]))
        fun _ => Handler.Writes.ret _) fun _ => Handler.Writes.ret _
  | getRoomResults msg =>
      exact Handler.Writes.bind (Handler.quiet_issue (by simp [Cmd.part])) fun _ =>
        Handler.Writes.ret _
  | getExchangeRecord msg =>
      exact Handler.Writes.bind (Handler.quiet_issue (by simp [Cmd.part])) fun _ =>
        Handler.Writes.ret _
  | getNoticeList =>
      refine Handler.Writes.bind (Handler.Writes.bind (Handler.quiet_issue (by simp [Cmd.part]))
        fun _ => ?_) fun _ => Handler.Writes.ret _
      exact Handler.Writes.bind (Handler.quiet_issue (by simp [Cmd.part])) fun _ =>
        Handler.Writes.ret _
  | _ => exact absurd h id

/-- The requests that read one record and answer. -/
def Request.Reading : Request → Prop
  | .getIntroducer _ | .gmIntroducerReward _ | .gmGetUser _ | .gmGetUserByUnionid _ => True
  | .serviceGetUser _ => True
  | _ => False

/-- Requests that only read look for a user, and are quiet then. -/
theorem run_of_reading (w : World) (s : Store) {l : Arrival} (h : l.request.Reading) :
    ∃ u f, l.handler.run (exec w) s = Prog.run (exec w) (getUser u >>= f) s ∧
      ∀ user, Handler.Quiet (f user) := by
  have hsend : ∀ n, Handler.Quiet (sendErrno n) := fun n => Handler.Writes.ret _
  obtain ⟨now, request⟩ := l
  cases request with
  | getIntroducer msg =>
      exact ⟨_, _, rfl, fun user =>
        Handler.Writes.ite (hsend _) (Handler.Writes.ite (hsend _) (Handler.Writes.ret _))⟩
  | gmIntroducerReward msg => exact ⟨_, _, rfl, fun user => Handler.Writes.ite (hsend _) (hsend _)⟩
  | gmGetUser msg =>
      refine ⟨(ownerOf s (msg.get "userno")).elim .null .str, _, rfl, fun user => ?_⟩
      exact Handler.Writes.ite (hsend _) (Handler.Writes.ret _)
  | gmGetUserByUnionid msg =>
      exact ⟨_, _, rfl, fun user => Handler.Writes.ite (hsend _) (Handler.Writes.ret _)⟩
  | serviceGetUser msg =>
      exact ⟨_, _, rfl, fun user => Handler.Writes.ite (hsend _) (Handler.Writes.ret _)⟩
  | _ => exact absurd h id

/-- The requests that register nobody. -/
theorem sound_of_triple {view : View} {vs : List String} {s : Store} {w : World} {l : Arrival}
    (hnone : registers s l = none)
    (h : Sound view vs (l.handler.run (exec w) s).2) :
    Sound view (vs ++ (registers s l).toList) (step w s l) := by
  rw [hnone, Option.toList_none, List.append_nil]
  exact h

/-- Requests that only read keep the stores sound. -/
theorem sound_reading {view : View} {vs : List String} {s : Store} {w : World} {l : Arrival}
    (hs : Sound view vs s) (h : l.request.Reading) : Sound view vs (l.handler.run (exec w) s).2 := by
  obtain ⟨u, f, hf, hquiet⟩ := run_of_reading w s h
  rw [hf]
  exact sound_getUser (fun user => outside_of_quiet (hquiet user)) s hs

/-- **A request** that keeps to its conditions keeps the invariant. -/
theorem sound_step (view : View) {vs : List String} {s : Store} {w : World}
    (hok : view = .rows → ∀ n, w.mysqlOk n = true) (hs : Sound view vs s) (l : Arrival)
    (hproper : Proper s l) (hnumbered : view = .numbers → Numbered s l)
    (hmirrored : view = .rows → Mirrored s l) :
    Sound view (vs ++ (registers s l).toList) (step w s l) := by
  obtain ⟨now, request⟩ := l
  cases request with
  | login ip msg => exact sound_login now hs hok hproper hmirrored
  | register ip msg => exact sound_register hs hok hproper hmirrored
  | addCoin msg => exact sound_of_triple rfl (sound_addCoin now msg hok s hs)
  | weixinPayNotify rowdata => exact sound_of_triple rfl (hs.outside (outside_weixinPayNotify rowdata))
  | getExchangeCode msg => exact sound_of_triple rfl (sound_getExchangeCode hok s hs)
  | getUserData msg => exact sound_of_triple rfl (sound_getUserData now msg hs hok hmirrored)
  | bindMobile msg => exact sound_of_triple rfl (sound_bindMobile hok s hs)
  | getInviteReward msg => exact sound_of_triple rfl (sound_getInviteReward hs hok hproper)
  | gmSendRoomCard msg => exact sound_of_triple rfl (sound_gmSendRoomCard hs hok hproper)
  | gmBuyRoomCard msg => exact sound_of_triple rfl (sound_gmBuyRoomCard hok s hs)
  | gmUpdateUser msg => exact sound_of_triple rfl (sound_gmUpdateUser hok s hs)
  | serviceUpdateUser msg =>
      exact sound_of_triple rfl (sound_serviceUpdateUser hs hok hproper hnumbered hmirrored)
  | serviceGateWay msg => exact sound_of_triple rfl (sound_serviceGateWay hs hok hproper)
  | getIntroducer msg => exact sound_of_triple rfl (sound_reading hs trivial)
  | gmIntroducerReward msg => exact sound_of_triple rfl (sound_reading hs trivial)
  | gmGetUser msg => exact sound_of_triple rfl (sound_reading hs trivial)
  | gmGetUserByUnionid msg => exact sound_of_triple rfl (sound_reading hs trivial)
  | serviceGetUser msg => exact sound_of_triple rfl (sound_reading hs trivial)
  | _ => exact sound_of_triple rfl (hs.outside (outside_of_quiet (quiet_of_aside trivial)))

end UserStores

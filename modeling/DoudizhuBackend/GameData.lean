/-
# The class `GameData`

The methods of `html/v0/GameData.php` that the request handlers use, as programs over the
commands of `Store.lean`.  The methods keep the source's names; `now` is the time of the
request (`time()` and `date()`).

A user record lives in the hash `user` under `u_` followed by the unionid.  `updateUser`
reads the record, merges the data into it and writes the whole record back; `updateUser2`
does the same with a copy of the record the caller already holds; `addUserReward` writes
the caller's copy itself.  MySQL only receives the data (`updateUserMysql`).
-/
import DoudizhuBackend.Store

open Php

namespace GameData

/-- The key of a user in the hash `user`. -/
def userKey (unionid : Value) : String := "u_" ++ unionid.text

/-! ## MySQL -/

/-- `$user['unionid']` starts with `score_race_ai_`. -/
def isRaceAi (unionid : Value) : Bool :=
  "score_race_ai_".toList.isPrefixOf unionid.text.toList

/-- The score of a newly registered user. -/
def initialScore (unionid : Value) : ℚ := if isRaceAi unionid then 99999999 else 36

/-- The score of a user whom `register.php` registers. -/
def initialScore2 (unionid : Value) : ℚ := if isRaceAi unionid then 99999999 else 48

/-- The fields that both `addUser` and `addUser_mysql` set. -/
def registrationFields (now : ℕ) (unionid : Value) : List (String × Value) :=
  [("roomCardNum", .num 30),
   ("score", .num (initialScore unionid)),
   ("score2", .num (initialScore2 unionid)),
   ("win", .num 0),
   ("lose", .num 0),
   ("level", .num 0),
   ("isInvited", .num 1),
   ("inviteTimes", .num 0),
   ("redPackVal", .num 0),
   ("registerTime", .str (Calendar.dateTime now)),
   ("getRedPackTime", .num now),
   ("loginDayCount", .num 0),
   ("todayRedPackCount", .num 0),
   ("lastLoginTime", .str ""),
   ("isAcceptDailyReward", .num 0),
   ("rechargeVal", .num 0),
   ("lastRechargeDate", .str ""),
   ("add_score", .num 0),
   ("add_roomCardNum", .num 0),
   ("add_redPackVal", .num 0)]

/-- `addUser_mysql`: a new row of `op_user`. -/
def addUserMysql (now : ℕ) (user : Fields) : Handler Bool :=
  issue (.insert .opUser (user.merge (Fields.ofList
    (("totalGetRedPackVal", .num 0) :: registrationFields now (user.get "unionid")))))

/-- `updateUser_mysql`: the changed columns of the rows of the user. -/
def updateUserMysql (userData : Fields) : Handler Bool :=
  if (userData.get "unionid").toBool then issue (.updateOpUser userData) else pure false

/-- `addRechargeRecord_mysql`. -/
def addRechargeRecordMysql (rechargeRecord : Fields) : Handler Bool :=
  issue (.insert .opRechargeRecord rechargeRecord)

/-- `addRedpackRecord_mysql`. -/
def addRedpackRecordMysql (redpackRecord : Fields) : Handler Bool :=
  issue (.insert .opGetRedpackRecord redpackRecord)

/-- `insertWeixinOrderInfo_mysql`. -/
def insertWeixinOrderInfoMysql (orderInfo : Fields) : Handler Bool :=
  issue (.insert .opWexinPayRecord orderInfo)

/-- `insertAddScoreLog_mysql`. -/
def insertAddScoreLogMysql (addScoreLog : Fields) : Handler Bool :=
  issue (.insert .opScoreLog addScoreLog)

/-- A row of `op_score_log`, as all handlers build it. -/
def addScoreLog (now : ℕ) (user : Fields) (addScore nowScore : Value) (addWay : String) :
    Fields :=
  Fields.ofList
    [("unionid", user.get "unionid"),
     ("nickname", user.get "nickname"),
     ("time", .str (Calendar.dateTime now)),
     ("old_score", user.get "score"),
     ("add_score", addScore),
     ("now_score", nowScore),
     ("add_way", .str addWay)]

/-! ## User records -/

/-- The record `addUser` stores, but for the number. -/
def newUser (now : ℕ) (user : Fields) : Fields :=
  user.merge (Fields.ofList
    (("todayRechargeVal", .num 0) :: registrationFields now (user.get "unionid")))

/-- `addUser`: the new record gets the next number, which is entered in `userno2unionid`. -/
def addUser (now : ℕ) (user : Fields) : Handler Unit := do
  let size ← issue (.hsize .user)
  let user := (newUser now user).set "userno" (.num (size + 1 + 100000))
  issue (.hset .user (userKey (user.get "unionid")) user.jsonEncode)
  issue (.hset .userno2unionid (user.get "userno").text (user.get "unionid").text)
  let _ ← addUserMysql now user

/-- The record of a user, or the empty array.  A record without a number gets a random one,
which is entered into `userno2unionid` but not written back. -/
def getUser (unionid : Value) : Handler Fields := do
  let userJson ← issue (.hget .user (userKey unionid))
  match userJson.join with
  | none => pure ∅
  | some user =>
      if user.isset "userno" then pure user.fields
      else do
        let userno ← issue (.rand 1000 99999)
        issue (.hset .userno2unionid (toString userno) (user.get "unionid").text)
        pure (user.fields.set "userno" (.str (toString userno)))

/-- `updateUser2`: writes the given copy of the record, changed by `data`. -/
def updateUser2 (user data : Fields) : Handler Unit :=
  if data.isset "unionid" then do
    issue (.hset .user (userKey (data.get "unionid")) (user.merge data).jsonEncode)
    let _ ← updateUserMysql data
  else pure ()

/-- `updateUser`: changes the stored record, and the row. -/
def updateUser (data : Fields) : Handler Unit :=
  if data.isset "unionid" then do
    let user ← getUser (data.get "unionid")
    issue (.hset .user (userKey (data.get "unionid")) (user.merge data).jsonEncode)
    let _ ← updateUserMysql data
  else pure ()

/-- `getUnionid`: the user with a number. -/
def getUnionid (userno : Value) : Handler (Option String) :=
  issue (.hget .userno2unionid userno.text)

/-! ## Rewards pending from the back office -/

/-- `isset($user[$f]) && $user[$f] > 0`. -/
def pendingReward (user : Fields) (f : String) : Bool :=
  user.isset f && Value.looseLt (.num 0) (user.get f)

/-- The sum of two fields. -/
def sumOf (user : Fields) (f g : String) : Value :=
  .num ((user.get f).toNum + (user.get g).toNum)

/-- The pending room cards are added, and none are pending any more. -/
def rewardRoomCard (user : Fields) : Fields :=
  if pendingReward user "add_roomCardNum" then
    (user.set "roomCardNum" (sumOf user "roomCardNum" "add_roomCardNum")).set
      "add_roomCardNum" (.num 0)
  else user

/-- The pending score is added. -/
def rewardScore (user : Fields) : Fields :=
  if pendingReward user "add_score" then
    ((user.set "score" (sumOf user "score" "add_score")).set "add_score" (.num 0)).set
      "rechargeVal" (.num ((user.get "rechargeVal").toNum + 1))
  else user

/-- The pending red packet is added. -/
def rewardRedPack (user : Fields) : Fields :=
  if pendingReward user "add_redPackVal" then
    (user.set "redPackVal" (sumOf user "redPackVal" "add_redPackVal")).set
      "add_redPackVal" (.num 0)
  else user

/-- What MySQL is told about a reward. -/
def rewardUpdateData (user : Fields) : Fields :=
  Fields.ofList
    [("unionid", user.get "unionid"),
     ("roomCardNum", user.get "roomCardNum"),
     ("add_roomCardNum", user.get "add_roomCardNum"),
     ("score", user.get "score"),
     ("add_score", user.get "add_score"),
     ("redPackVal", user.get "redPackVal"),
     ("add_redPackVal", user.get "add_redPackVal")]

/-- Some reward is pending. -/
def isAdd (user : Fields) : Bool :=
  pendingReward user "add_roomCardNum" || pendingReward user "add_score" ||
    pendingReward user "add_redPackVal"

/-- `addUser_reward`: hands out what the back office has entered into the record. -/
def addUserReward (now : ℕ) (user : Fields) : Handler Fields := do
  let user1 := rewardRoomCard user
  Handler.when (pendingReward user1 "add_score") do
    let _ ← insertAddScoreLogMysql
      (addScoreLog now user1 (user1.get "add_score") (sumOf user1 "score" "add_score") "houtai")
  let user3 := rewardRedPack (rewardScore user1)
  Handler.when (isAdd user) do
    issue (.hset .user (userKey (user.get "unionid")) user3.jsonEncode)
    let _ ← updateUserMysql (rewardUpdateData user3)
  pure user3

/-! ## Payment records -/

/-- `getAppstoreOrderId`. -/
def getAppstoreOrderId (orderId : Value) : Handler Value := do
  let val ← issue (.hget .appstoreOrderidSet orderId.text)
  pure (val.getD .null)

/-- `setAppstoreOrderId`: marks a transaction as used. -/
def setAppstoreOrderId (orderId val : Value) : Handler Unit :=
  issue (.hset .appstoreOrderidSet orderId.text val)

/-- `insertWeixinPayInfo`: keeps the notification, and records the fee of the order. -/
def insertWeixinPayInfo (outTradeNo transaction_id : Value) (payInfo : Fields)
    (cash_fee : Value) : Handler Unit := do
  issue (.hset .wexinPaySet transaction_id.text payInfo)
  issue (.hset .wexinOutTradeNoSet outTradeNo.text cash_fee.intval)

/-- The stored fee of an order; SSDB gives back its decimal text, which compares like the
number. -/
def getOutTradeNoRecord (outTradeNo : Value) : Handler Value := do
  let record ← issue (.hget .wexinOutTradeNoSet outTradeNo.text)
  pure (record.elim .null fun fee => .num fee)

/-- `clearOutTradeNoRecord`: the record of an order that has been credited. -/
def clearOutTradeNoRecord (outTradeNo : Value) : Handler Unit :=
  issue (.hset .wexinOutTradeNoSet outTradeNo.text 0)

/-! ## Activity settings -/

/-- The settings before the first change. -/
def defaultActivity : List (String × Value) :=
  [("activitySwitch", .str "on"), ("rate_120", .num 33), ("rate_80", .num 33),
   ("rate_40", .num 34)]

/-- `getActivity`: the stored settings. -/
def getActivity : Handler Fields := do
  let info ← issue (.getJson "k_activityInfo")
  pure (info.elim ∅ JsonObject.fields)

/-- `setActivity`: merges settings into the stored ones, or into the defaults. -/
def setActivity (activityInfo : Fields) : Handler Unit := do
  let origin ← getActivity
  let origin := if origin.isEmpty then Fields.ofList defaultActivity else origin
  issue (.setJson "k_activityInfo" (origin.merge activityInfo).jsonEncode)

/-! ## Counters, queues, daily marks -/

/-- The counters kept under a plain key: read, `0` if empty, add, write. -/
def addToCounter (key : String) (val : Value) : Handler Unit := do
  let count ← issue (.get key)
  let count : ℚ := if count.toBool then count.toNum else 0
  issue (.set key (.num (val.toNum + count)))

/-- `addRedPackCount`. -/
def addRedPackCount (redPackVal : Value) : Handler Unit := addToCounter "redpack_count" redPackVal

/-- `addSmallRedPackCount`. -/
def addSmallRedPackCount (redPackVal : Value) : Handler Unit :=
  addToCounter "redpack_small_count" redPackVal

/-- `addSmallRedPackPlayTimes`. -/
def addSmallRedPackPlayTimes : Handler Unit := addToCounter "redpack_small_times" (.num 1)

/-- `addBigRedPackPlayTimes`. -/
def addBigRedPackPlayTimes : Handler Unit := addToCounter "redpack_big_times" (.num 1)

/-- `addChargeCount`. -/
def addChargeCount (chargeVal : Value) : Handler Unit := addToCounter "charge_count" chargeVal

/-- `addRewardPool`: adds to the pool, or creates it. -/
def addRewardPool (rewardVal : Value) : Handler Unit := do
  let present ← issue (.existsKey "k_rewardPool")
  if present then issue (.incr "k_rewardPool" rewardVal)
  else issue (.set "k_rewardPool" rewardVal)

/-- `getRewardPoolVal`. -/
def getRewardPoolVal : Handler Value := do
  let poolVal ← issue (.get "k_rewardPool")
  pure (if poolVal.toBool then poolVal else .num 0)

/-- Whether the daily check was already made for the user on this date; the first call of the
date makes it. -/
def isAddCoinToday (now : ℕ) (unionid : Value) : Handler Bool := do
  let set := HashName.login ("login-" ++ Calendar.date now)
  let ret ← issue (.hget set unionid.text)
  if (ret.getD .null).toBool then pure true
  else do
    issue (.hset set unionid.text (.num 1))
    pure false

/-- A queue bounded to `bound` items: the oldest item goes when it is full. -/
def pushBounded (name : String) (bound : ℕ) (item : Item) : Handler Unit := do
  let size ← issue (.qsize name)
  Handler.when (bound ≤ size) (issue (.qpopBack name))
  issue (.qpushFront name item)

/-- `insertRoomResult`: the newest ten results of a user are kept. -/
def insertRoomResult (now : ℕ) (unionid : Value) (roomResult : RoomResult) : Handler Unit :=
  pushBounded ("roomresult_" ++ unionid.text) 10 (.roomResult roomResult (Calendar.dateTime now))

/-- `getRoomResults`. -/
def getRoomResults (unionid : Value) (offset : ℕ) : Handler (List Item) :=
  issue (.qrange ("roomresult_" ++ unionid.text) offset 30)

/-- `insertExchangeRecord`. -/
def insertExchangeRecord (now : ℕ) (unionid m c : Value) : Handler Unit :=
  issue (.qpushFront ("ex_" ++ unionid.text) (.exchange m c (Calendar.dateTime now)))

/-- `getExchangeRecord`. -/
def getExchangeRecord (unionid : Value) (offset : ℕ) : Handler (List Item) :=
  issue (.qrange ("ex_" ++ unionid.text) offset 30)

/-- `addNotice`: the newest hundred notices of each level are kept. -/
def addNotice (noticeStr level : Value) : Handler Unit :=
  if Value.looseEq level (.num 1) then pushBounded "notice_queue_1" 100 (.notice noticeStr)
  else pushBounded "notice_queue_2" 100 (.notice noticeStr)

/-- `getNoticeList`. -/
def getNoticeList : Handler (List (String × List Item)) := do
  let level1 ← issue (.qrange "notice_queue_1" 0 10)
  let level2 ← issue (.qrange "notice_queue_2" 0 10)
  pure [("level_1", level1), ("level_2", level2)]

end GameData

/-! ## `html/lib/helper.php` -/

namespace Helper

/-- `helper_substr` on UTF-8 text: the first `sublen` characters, and two dots if there are
more.  The character `NUL` is not matched by the pattern. -/
def substr (string : Value) (sublen : ℕ) : String :=
  let cs := string.text.toList.filter (· ≠ '\x00')
  if cs.length > sublen then String.ofList (cs.take sublen) ++ ".." else String.ofList cs

/-- `helper_getCode`: the code of a successful answer, else the empty string. -/
def getCode (unionid amount : Value) : Handler Value := do
  let ret ← issue (.redeemcode unionid amount)
  if Value.looseEq ret.errno (.num 1000) then pure ret.redeemCode else pure (.str "")

/-- `rewardIntroducer`: a call to the site of the back office. -/
def rewardIntroducer (unionid : Value) : Handler Unit :=
  issue (.sitePage "site/reward-introducer" [unionid])

/-- `rewardIntroducer2`. -/
def rewardIntroducer2 (unionid : Value) : Handler Unit :=
  issue (.sitePage "site/reward-room-card" [unionid])

/-- `rechargeRecord`. -/
def rechargeRecord (unionid pay_name pay_time amount channel : Value) : Handler Unit :=
  issue (.sitePage "site/order" [amount, channel, pay_name, pay_time, unionid])

end Helper

/-- What a handler sends back: a message with an `errno`, a message that also holds lists of
queue items, a message without an `errno`, the XML acknowledgement of a payment notification,
or nothing (`exit` without a message). -/
inductive Reply where
  | send (errno : ℕ) (data : Fields)
  | sendItems (errno : ℕ) (lists : List (String × List Item))
  | sendPlain (data : Fields)
  | xmlOk
  | quit

/-- The `errno` of a reply, if it has one. -/
def Reply.errno? : Reply → Option ℕ
  | .send errno _ => some errno
  | .sendItems errno _ => some errno
  | .sendPlain _ => none
  | .xmlOk => none
  | .quit => none

@[simp] theorem Reply.errno?_send (n : ℕ) (data : Fields) :
    (Reply.send n data).errno? = some n := rfl

/-- `helper_sendMsg(array('errno' => n))`. -/
def sendErrno (n : ℕ) : Handler Reply := pure (.send n ∅)

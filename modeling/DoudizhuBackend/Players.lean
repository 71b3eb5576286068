/-
# The players' and the back office's requests

The remaining handlers of `html/v0`: exchange of red packets for codes, invitations, room
cards, the mobile number, the settings of the back office, and the requests that only read.

All handlers are those that run after `helper_receiveMsg` accepted the message.
-/
import DoudizhuBackend.GameServer

open Php GameData

namespace Players

/-! ## Exchange codes -/

/-- The amounts that can be exchanged: `600`, `1000`, `1500`. -/
def amountAllowed (redPackMoney : Value) : Bool :=
  Value.looseEq redPackMoney (.num 600) || Value.looseEq redPackMoney (.num 1000) ||
    Value.looseEq redPackMoney (.num 1500)

/-- The `errno` with which the checks on the record refuse an exchange. -/
def exchangeRefusal (user : Fields) (redPackMoney : Value) : Option ℕ :=
  if user.isEmpty then some 1003
  else if !user.isset "mobile" then some 1005
  else if Value.looseLt (user.get "redPackVal") redPackMoney then some 1004
  else if !Value.looseLt (.num 0) (user.get "rechargeVal") then some 1006
  else if Value.looseLt (.num 80) (user.get "score") then some 1003
  else none

/-- The balance after the exchange. -/
def balanceAfter (user : Fields) (redPackMoney : Value) : Value :=
  .num ((user.get "redPackVal").toNum - redPackMoney.toNum)

/-- The debit.  An amount that equals `100` sets the mark `isExchange1Yuan`, which the new array never has
before; of the allowed amounts this is the value `true`. -/
def exchangeData (user : Fields) (redPackMoney : Value) : Fields :=
  Fields.ofList
    ([("unionid", user.get "unionid"), ("redPackVal", balanceAfter user redPackMoney)] ++
      if Value.looseEq redPackMoney (.num 100) then [("isExchange1Yuan", .num 1)] else [])

/-- An exchange writes three fields at most. -/
theorem mem_of_mem_exchangeData {user : Fields} {v : Value} {f : String} (h : f ∈ exchangeData user v) :
    f ∈ ["unionid", "redPackVal", "isExchange1Yuan"] := by
  unfold exchangeData at h
  split at h
  · simpa [Fields.mem_ofList] using h
  · rcases (by simpa [Fields.mem_ofList] using h : f = "unionid" ∨ f = "redPackVal") with rfl | rfl
    · decide
    · decide

/-- An exchange keeps the `unionid`. -/
theorem exchangeData_unionid (user : Fields) (v : Value) :
    (exchangeData user v).get "unionid" = user.get "unionid" := by
  simp [exchangeData, Fields.get_ofList_cons]

/-- An exchange takes the amount off the balance. -/
theorem exchangeData_redPackVal (user : Fields) (v : Value) :
    (exchangeData user v).get "redPackVal" = balanceAfter user v := by
  simp [exchangeData, Fields.get_ofList_cons]

/-- What an exchange writes can be encoded. -/
theorem exchangeData_encodable {user : Fields} (h : Fields.encodable (user.get "unionid") = true) (v : Value) :
    (exchangeData user v).Encodable := by
  refine Fields.encodable_ofList fun kv hkv => ?_
  rcases List.mem_append.mp hkv with hkv | hkv
  · simp only [List.mem_cons, List.not_mem_nil, or_false] at hkv
    rcases hkv with rfl | rfl
    · exact h
    · rfl
  · split at hkv
    · rw [List.mem_singleton.mp hkv]
      rfl
    · cases hkv

/-- The part of `getExchangeCode.php` after the code was issued. -/
def debit (now : ℕ) (msg : JsonObject) (user : Fields) (exchangeCode : Value) :
    Handler Reply := do
  let redPackMoney := msg.get "redPackMoney"
  updateUser (exchangeData user redPackMoney)
  insertExchangeRecord now (msg.get "unionid") redPackMoney exchangeCode
  pure (.send 1000 (Fields.ofList
    [("redPackVal", balanceAfter user redPackMoney),
     ("exchangeCode", exchangeCode),
     ("exchangeMoney", redPackMoney)]))

/-- `getExchangeCode.php`. -/
def getExchangeCode (now : ℕ) (msg : JsonObject) : Handler Reply :=
  let redPackMoney := msg.get "redPackMoney"
  if amountAllowed redPackMoney then do
    let user ← getUser (msg.get "unionid")
    match exchangeRefusal user redPackMoney with
    | some errno => sendErrno errno
    | none => do
        let exchangeCode ← Helper.getCode (user.get "unionid") redPackMoney
        if Value.looseEq exchangeCode (.str "") then sendErrno 1003
        else debit now msg user exchangeCode
  else sendErrno 1004

/-- `getIntroducer.php`: the function `util_getCode` it calls does not exist, so a request that
passes the checks ends with a fatal error. -/
def getIntroducer (msg : JsonObject) : Handler Reply := do
  let user ← getUser (msg.get "unionid")
  if user.isEmpty then sendErrno 1003
  else if Value.looseLt (user.get "redPackVal") (msg.get "redPackMoney") then sendErrno 1004
  else pure .quit

/-! ## The player's own data -/

/-- `getUserData.php`. -/
def getUserData (now : ℕ) (msg : JsonObject) : Handler Reply := do
  let user ← getUser (msg.get "unionid")
  if user.isEmpty then sendErrno 1003
  else do
    let user ← addUserReward now (user.setDefault "todayRechargeVal" (.num 0))
    pure (.send 1000 (Fields.ofList (Login.copied user
      ["unionid", "nickname", "sex", "headimgurl", "city", "roomCardNum", "score", "score2", "win",
       "lose", "ip", "level", "inviteTimes", "redPackVal", "rechargeVal", "lastLoginTime",
       "loginDayCount", "todayRedPackCount", "lastRechargeDate", "todayRechargeVal"] ++
      [("shortNickName", .str (Helper.substr (user.get "nickname") 4)),
       ("userno", .num (user.get "userno").intval),
       ("mobile", user.getD "mobile" (.str "0")),
       ("isExchange1Yuan", user.getD "isExchange1Yuan" (.num 0))])))

/-- What `bindMobile.php` writes. -/
def mobileData (msg : JsonObject) : Fields :=
  Fields.ofList [("unionid", msg.get "unionid"), ("mobile", msg.get "mobile")]

/-- `bindMobile.php`. -/
def bindMobile (msg : JsonObject) : Handler Reply := do
  let user ← getUser (msg.get "unionid")
  if user.isEmpty then sendErrno 1003
  else do
    updateUser (mobileData msg)
    sendErrno 1000

/-! ## Invitations -/

/-- What a granted invitation writes for the inviter. -/
def inviterData (unionid : Value) (userData : Fields) : Fields :=
  Fields.ofList
    [("unionid", unionid),
     ("roomCardNum", .num ((userData.get "roomCardNum").toNum + 20)),
     ("inviteTimes", .num ((userData.get "inviteTimes").toNum + 1))]

/-- What it writes for the user who was invited. -/
def invitedData (targetUnionid : String) : Fields :=
  Fields.ofList [("unionid", .str targetUnionid), ("isInvited", .num 2)]

/-- The target of an invitation counts: not yet rewarded, and at least six games played. -/
def inviteRefusal (target : Fields) : Option ℕ :=
  if target.isEmpty then some 1003
  else if !Value.looseEq (target.get "isInvited") (.num 1) then some 1004
  else if (target.get "win").toNum + (target.get "lose").toNum < 6 then some 1005
  else none

/-- The reward for an invitation. -/
def rewardInvite (unionid : Value) (targetUnionid : String) : Handler Reply := do
  let userData ← getUser unionid
  if Value.looseLt (userData.get "inviteTimes") (.num 30) then do
    updateUser (inviterData unionid userData)
    updateUser (invitedData targetUnionid)
    sendErrno 1000
  else sendErrno 1006

/-- `getInviteReward.php`. -/
def getInviteReward (msg : JsonObject) : Handler Reply := do
  let found ← getUnionid (msg.get "targetUserno")
  if Value.looseEq (found.elim .null .str) (msg.get "unionid") then sendErrno 1007
  else match found with
    | none => sendErrno 1002
    | some targetUnionid =>
        if (Value.str targetUnionid).toBool then do
          let target ← getUser (.str targetUnionid)
          match inviteRefusal target with
          | some errno => sendErrno errno
          | none => rewardInvite (msg.get "unionid") targetUnionid
        else sendErrno 1002

/-! ## The back office -/

/-- A new number of room cards. -/
def roomCardData (unionid : Value) (roomCardNum : ℚ) : Fields :=
  Fields.ofList [("unionid", unionid), ("roomCardNum", .num roomCardNum)]

/-- The transfer of `gm_sendRoomCard.php` after its checks. -/
def transferRoomCard (msg : JsonObject) (receiverUnionid : Value) (sender receiver : Fields) :
    Handler Reply := do
  let num := (msg.get "room_card_num").toNum
  let senderCards := (sender.get "roomCardNum").toNum - num
  let receiverCards := (receiver.get "roomCardNum").toNum + num
  updateUser (roomCardData (msg.get "sender_unionid") senderCards)
  updateUser (roomCardData receiverUnionid receiverCards)
  pure (.send 1000 (Fields.ofList
    [("sender_userno", msg.get "sender_unionid"),
     ("receiver_userno", msg.get "receiver_userno"),
     ("sender_room_card", .num senderCards),
     ("receiver_room_card", .num receiverCards)]))

/-- `gm_sendRoomCard.php`; it tests whether the sender's unionid is empty, not whether there is
a sender. -/
def gmSendRoomCard (msg : JsonObject) : Handler Reply := do
  let found ← getUnionid (msg.get "receiver_userno")
  let receiverUnionid := found.elim .null Value.str
  let sender ← getUser (msg.get "sender_unionid")
  let receiver ← getUser receiverUnionid
  if !(msg.get "sender_unionid").toBool || receiver.isEmpty then sendErrno 1003
  else if (sender.get "roomCardNum").toNum - (msg.get "room_card_num").toNum < 0 then
    sendErrno 1004
  else transferRoomCard msg receiverUnionid sender receiver

/-- `gm_buyRoomCard.php`. -/
def gmBuyRoomCard (msg : JsonObject) : Handler Reply := do
  let user ← getUser (msg.get "unionid")
  if user.isEmpty then sendErrno 1003
  else do
    let num := (user.get "roomCardNum").toNum + (msg.get "room_card_num").toNum
    updateUser (roomCardData (user.get "unionid") num)
    pure (.send 1000 (Fields.ofList [("roomCardNum", .num num), ("userno", user.get "userno")]))

/-- The data `gm_updateUser.php` writes; an unknown number gives no `unionid`. -/
def switchData (msg : JsonObject) (found : Option String) : Fields :=
  Fields.ofList [("unionid", found.elim .null .str), ("loginSwitch", msg.get "loginSwitch")]

/-- `gm_updateUser.php`. -/
def gmUpdateUser (msg : JsonObject) : Handler Reply := do
  let found ← getUnionid (msg.get "userno")
  updateUser (switchData msg found)
  sendErrno 1000

/-- `gm_introducer_reward.php`: the write of the reward is commented out in the source. -/
def gmIntroducerReward (msg : JsonObject) : Handler Reply := do
  let user ← getUser (msg.get "unionid")
  if user.isEmpty then sendErrno 1003 else sendErrno 1000

/-- The reply of `gm_getUser.php`, and with the number that of `gm_getUserByUnionid.php`. -/
def gmUserReply (user : Fields) (more : List (String × Value)) : Reply :=
  .send 1000 (Fields.ofList (Login.copied user
    ["unionid", "nickname", "sex", "headimgurl", "city", "roomCardNum", "score", "score2", "win",
     "lose", "ip", "level"] ++
    [("mobile", user.getD "mobile" (.str "0")),
     ("channel", user.getD "channel" (.str "none"))] ++ more))

/-- `gm_getUser.php`. -/
def gmGetUser (msg : JsonObject) : Handler Reply := do
  let found ← getUnionid (msg.get "userno")
  let user ← getUser (found.elim .null .str)
  if user.isEmpty then sendErrno 1003 else pure (gmUserReply user [])

/-- `gm_getUserByUnionid.php`. -/
def gmGetUserByUnionid (msg : JsonObject) : Handler Reply := do
  let user ← getUser (msg.get "unionid")
  if user.isEmpty then sendErrno 1003
  else pure (gmUserReply user [("userno", .num (user.get "userno").intval)])

/-- `gm_activitySetting.php`: the rates are only checked when `rate_40` is among them. -/
def gmActivitySetting (msg : JsonObject) : Handler Reply := do
  let named := ["activitySwitch", "rate_120", "rate_80", "rate_40"].filter fun f => msg.isset f
  let activityInfo := Fields.ofList (named.map fun f => (f, msg.get f))
  let sum := (activityInfo.get "rate_120").toNum + (activityInfo.get "rate_80").toNum +
    (activityInfo.get "rate_40").toNum
  if msg.isset "rate_40" && sum ≠ 100 then sendErrno 1200
  else do
    setActivity activityInfo
    sendErrno 1000

/-! ## Lists -/

/-- `getRoomResults.php`; the offset of the message is not used. -/
def getRoomResults (msg : JsonObject) : Handler Reply := do
  let items ← GameData.getRoomResults (msg.get "unionid") 0
  pure (.sendItems 1000 [("roomResult", items)])

/-- `getExchangeRecord.php`. -/
def getExchangeRecord (msg : JsonObject) : Handler Reply := do
  let items ← GameData.getExchangeRecord (msg.get "unionid") 0
  pure (.sendItems 1000 [("exchangeRecord", items)])

/-- `getNoticeList.php`. -/
def getNoticeList : Handler Reply := do
  let lists ← GameData.getNoticeList
  pure (.sendItems 1000 lists)

end Players

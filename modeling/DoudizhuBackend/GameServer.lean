/-
# The game server's requests: `service_*.php`

The game server reports the results of games and the red packets it gave out.  There are two
ways: `service_updateUser.php` takes new field values for the user's record, and
`service_gateWay.php` takes commands.  Both limit the red packets of a user: at most 120 fen
each, and not before 280 seconds have passed since the stored `getRedPackTime`.

The handlers are those that run after the address and the token were accepted.  Texts that
are only written to the log file are left out.
-/
import DoudizhuBackend.Login

open Php GameData

namespace GameServer

/-! ## What both ways share -/

/-- `$nowTime - $lastGetRedPackTime > 5*60 - 20`. -/
def coolDownOver (now : ℕ) (user : Fields) : Bool :=
  decide (280 < (now : ℚ) - (user.get "getRedPackTime").toNum)

/-- The notice about a red packet of `fen` fen. -/
def addRedPackNotice (user : Fields) (fen : ℚ) : Handler Unit :=
  Handler.when (decide (0 < fen / 100))
    (addNotice (.str (Helper.substr (user.get "nickname") 4 ++ "获得了" ++ numText (fen / 100) ++
      "元现金红包!!")) (.num 2))

/-- A row of `op_getRedpack_record`. -/
def redpackRecord (now : ℕ) (user : Fields) (coinVal redPackVal playTurn : Value) : Fields :=
  Fields.ofList
    [("userno", user.get "userno"),
     ("unionid", user.get "unionid"),
     ("nickname", user.get "nickname"),
     ("coinVal", coinVal),
     ("redPackVal", redPackVal),
     ("playTurn", playTurn),
     ("getTime", .str (Calendar.dateTime now))]

/-! ## `service_updateUser.php` -/

/-- The message: new values for fields of the record, and the result of a game if there is
one. -/
structure UpdateMsg where
  userData : JsonObject
  roomResult : Option RoomResult

/-- The coins of the last line of the history that has the user's short name. -/
def gameAddCoin (user : Fields) (roomResult : Option RoomResult) : ℚ :=
  (roomResult.elim [] RoomResult.history).foldl
    (fun coin line =>
      if Value.looseEq (.str (Helper.substr (user.get "nickname") 4)) line.n then
        ⌊line.s.toNum * 2 / 3⌋
      else coin) 0

/-- `$roomResult['coinType']` if it is set. -/
def coinType (roomResult : Option RoomResult) : Value :=
  roomResult.elim .null RoomResult.coinType

/-- What is stored about the result of a game. -/
def recordRoomResult (now : ℕ) (unionid : Value) (roomResult : Option RoomResult) :
    Handler Unit := do
  Handler.when (!(roomResult.elim [] RoomResult.history).isEmpty) do
    Helper.rewardIntroducer2 unionid
    roomResult.elim (pure ()) (insertRoomResult now unionid)
  Handler.when (coinType roomResult ≠ .null)
    (if Value.looseEq (coinType roomResult) (.num 1) then addBigRedPackPlayTimes
     else addSmallRedPackPlayTimes)

/-- `$userData` with the red packet cut to 120 fen and its time. -/
def cappedRedPack (now : ℕ) (user userData : Fields) : Fields :=
  let userData :=
    if 120 < (userData.get "redPackVal").toNum - (user.get "redPackVal").toNum then
      userData.set "redPackVal" (.num ((user.get "redPackVal").toNum + 120))
    else userData
  userData.set "getRedPackTime" (.num now)

/-- The red packet: `$userData['redPackVal'] - $user['redPackVal']`. -/
def addedRedPack (user userData : Fields) : ℚ :=
  (userData.get "redPackVal").toNum - (user.get "redPackVal").toNum

/-- What is stored about an accepted red packet, besides the record. -/
def recordRedPack (user userData : Fields) (roomResult : Option RoomResult) : Handler Unit := do
  addRedPackNotice user (addedRedPack user userData)
  Handler.when (coinType roomResult ≠ .null)
    (if Value.looseEq (coinType roomResult) (.num 1) then
      addRedPackCount (.num (addedRedPack user userData))
     else addSmallRedPackCount (.num (addedRedPack user userData)))

/-- `isset($userData['playTurn']) && isset($userData['redPackVal'])`. -/
def isRedPackTurn (userData : Fields) : Bool :=
  userData.isset "playTurn" && userData.isset "redPackVal"

/-- The score that is logged: the game server's, or the old one and the coins of the red
packet. -/
def loggedScore (user userData : Fields) : Value :=
  if isRedPackTurn userData then
    .num ((user.get "score").toNum + (userData.get "coinVal").toNum)
  else userData.get "score"

/-- The score that is stored: the old one and the coins of the game, or two more if these are
over 16. -/
def gameScore (user : Fields) (coin : ℚ) : ℚ :=
  if 16 < coin + (user.get "score").toNum - (user.get "score").toNum then
    (user.get "score").toNum + 2
  else coin + (user.get "score").toNum

/-- The row of `op_score_log` of a game. -/
def gameScoreLog (now : ℕ) (user userData : Fields) : Fields :=
  addScoreLog now user
    (.num ((loggedScore user userData).toNum - (user.get "score").toNum))
    (loggedScore user userData) (if isRedPackTurn userData then "redpack" else "game")

/-- The score part of the request: the log entry, and the data with the stored score. -/
def settleScore (now : ℕ) (user userData : Fields) (coin : ℚ) : Handler Fields :=
  if userData.isset "score" then do
    let _ ← insertAddScoreLogMysql (gameScoreLog now user userData)
    pure (userData.set "score" (.num (gameScore user coin)))
  else pure userData

/-- The end of `service_updateUser.php`: the rows of the tables and the write of the
record. -/
def finish (now : ℕ) (user userData : Fields) (coin : ℚ) : Handler Reply := do
  Handler.when (isRedPackTurn userData) do
    let _ ← addRedpackRecordMysql (redpackRecord now user (userData.get "coinVal")
      (.num (addedRedPack user userData)) (userData.get "playTurn"))
  let userData ← settleScore now user userData coin
  updateUser2 user userData
  sendErrno 1000

/-- `$user['redPackVal'] == 0 && isset($userData['redPackVal'])`. -/
def firstRedPack (user userData : Fields) : Bool :=
  Value.looseEq (user.get "redPackVal") (.num 0) && userData.isset "redPackVal"

/-- The part of `service_updateUser.php` after the roll-over. -/
def update (now : ℕ) (msg : UpdateMsg) (user : Fields) : Handler Reply := do
  let coin := gameAddCoin user msg.roomResult
  recordRoomResult now (msg.userData.get "unionid") msg.roomResult
  if msg.userData.isset "redPackVal" then
    if coolDownOver now user then do
      let userData := cappedRedPack now user msg.userData.fields
      recordRedPack user userData msg.roomResult
      finish now user userData coin
    else sendErrno 1001
  else finish now user msg.userData.fields coin

/-- `service_updateUser.php`. -/
def serviceUpdateUser (now : ℕ) (msg : UpdateMsg) : Handler Reply :=
  if (msg.userData.get "unionid").toBool then do
    let user ← getUser (msg.userData.get "unionid")
    Handler.when (firstRedPack user msg.userData.fields)
      (Helper.rewardIntroducer (msg.userData.get "unionid"))
    let user ← clearYesterdayData now (msg.userData.get "unionid") user
    update now msg user
  else sendErrno 1001

/-! ## `service_gateWay.php` -/

/-- The message: its scalar fields, and `$msg['roomResult']`. -/
structure GatewayMsg where
  fields : JsonObject
  roomResult : RoomResult

/-- A value cut to a bound: `if ($v > bound) $v = bound`. -/
def cappedAt (bound : ℚ) (v : Value) : Value :=
  if Value.looseLt (.num bound) v then .num bound else v

/-- The red packet of a command, at most 120. -/
def cashVal (msg : GatewayMsg) : Value := cappedAt 120 (msg.fields.get "cashVal")

/-- The coins of a command, at most 9. -/
def coinVal (msg : GatewayMsg) : Value := cappedAt 9 (msg.fields.get "coinVal")

/-- What a red packet writes into the record; `getRedPackTime` is not among it. -/
def redpackData (msg : GatewayMsg) (user : Fields) : Fields :=
  Fields.ofList
    [("unionid", msg.fields.get "unionid"),
     ("score", .num ((user.get "score").toNum + (coinVal msg).toNum)),
     ("redPackVal", .num ((user.get "redPackVal").toNum + (cashVal msg).toNum)),
     ("totalGetRedPackVal", .num ((user.get "totalGetRedPackVal").toNum + (cashVal msg).toNum)),
     ("todayRedPackCount", .num ((user.get "todayRedPackCount").toNum + 1))]

/-- The command `cmd_addRedpack`.  The counters of the source are not reached here, since
`$roomResult` is not set in this branch. -/
def addRedpack (now : ℕ) (msg : GatewayMsg) (user : Fields) : Handler Reply := do
  let _ ← addRedpackRecordMysql (redpackRecord now user (msg.fields.get "coinVal")
    (msg.fields.get "cashVal") (msg.fields.get "playTurn"))
  if coolDownOver now user then do
    addRedPackNotice user (cashVal msg).toNum
    let user := user.setDefault "totalGetRedPackVal" (.num 0)
    let updateData := redpackData msg user
    updateUser2 user updateData
    Handler.when (Value.looseLt (.num 0) (coinVal msg)) do
      let _ ← insertAddScoreLogMysql
        (addScoreLog now user (coinVal msg) (updateData.get "score") "redpack")
    sendErrno 1000
  else sendErrno 1001

/-- What the result of a game writes into the record. -/
def gameResultData (msg : GatewayMsg) (user : Fields) : Fields :=
  let addCoin := msg.fields.get "addCoin"
  let win : ℚ := if Value.looseLt (.num 0) addCoin then 1 else 0
  Fields.ofList
    [("unionid", msg.fields.get "unionid"),
     ("score", .num ((user.get "score").toNum + addCoin.toNum)),
     ("win", .num ((user.get "win").toNum + win)),
     ("lose", .num ((user.get "lose").toNum + (1 - win)))]

/-- The command `cmd_submitGameResult`. -/
def submitGameResult (now : ℕ) (msg : GatewayMsg) (user : Fields) : Handler Reply := do
  Handler.when (!msg.roomResult.history.isEmpty)
    (insertRoomResult now (msg.fields.get "unionid") msg.roomResult)
  Handler.when (!Value.looseEq (msg.fields.get "addCoin") (.num 0)) do
    let updateData := gameResultData msg user
    updateUser2 user updateData
    let _ ← insertAddScoreLogMysql
      (addScoreLog now user (msg.fields.get "addCoin") (updateData.get "score") "game")
  sendErrno 1000

/-- What the cost of a room writes into the record. -/
def costRoomCardData (msg : GatewayMsg) (user : Fields) : Fields :=
  Fields.ofList
    [("unionid", msg.fields.get "unionid"),
     ("roomCardNum",
       .num ((user.get "roomCardNum").toNum + (msg.fields.get "costRoomCard").toNum))]

/-- The command `cmd_costRoomCard`. -/
def costRoomCard (msg : GatewayMsg) (user : Fields) : Handler Reply := do
  updateUser2 user (costRoomCardData msg user)
  sendErrno 1000

/-- Whether the message's command equals a text. -/
def isCmd (msg : GatewayMsg) (cmd : String) : Bool :=
  Value.looseEq (msg.fields.get "cmd") (.str cmd)

/-- `service_gateWay.php`. -/
def serviceGateWay (now : ℕ) (msg : GatewayMsg) : Handler Reply :=
  if (msg.fields.get "unionid").toBool then do
    let user ← getUser (msg.fields.get "unionid")
    if isCmd msg "cmd_addRedpack" then addRedpack now msg user
    else if isCmd msg "cmd_submitGameResult" then submitGameResult now msg user
    else if isCmd msg "cmd_costRoomCard" then costRoomCard msg user
    else sendErrno 1000
  else sendErrno 1001

/-! ## Other requests of the game server -/

/-- `service_getUser.php`. -/
def serviceGetUser (msg : JsonObject) : Handler Reply := do
  let user ← getUser (msg.get "unionid")
  if user.isEmpty then sendErrno 1003
  else do
    let shortNickName := Helper.substr (user.get "nickname") 4
    pure (.send 1000 (Fields.ofList (Login.copied user
      ["unionid", "sex", "headimgurl", "city", "roomCardNum", "score", "win", "lose", "ip",
       "level", "isInvited", "redPackVal", "lastLoginTime", "loginDayCount", "todayRedPackCount",
       "lastRechargeDate", "rechargeVal"] ++
      [("nickname", .str shortNickName),
       ("score2", user.getD "score2" (.num 1000)),
       ("userno", .num (user.get "userno").intval),
       ("totalGetRedPackVal", user.getD "totalGetRedPackVal" (.num 0)),
       ("todayRechargeVal", user.getD "todayRechargeVal" (.num 0))])))

/-- `service_addNotice.php`. -/
def serviceAddNotice (msg : JsonObject) : Handler Reply := do
  addNotice (msg.get "noticeStr") (msg.get "level")
  sendErrno 1000

/-- `service_subRewardPool.php`. -/
def serviceSubRewardPool (msg : JsonObject) : Handler Reply := do
  addRewardPool (.num (-(msg.get "rewardPoolVal").toNum))
  sendErrno 1000

/-- `service_getRewardPool.php`. -/
def serviceGetRewardPool : Handler Reply := do
  let poolVal ← getRewardPoolVal
  pure (.send 1000 (Fields.ofList [("rewardPoolVal", poolVal)]))

/-- `service_getActInfo.php`: the settings with their defaults, the rates that are fixed, and
the reward pool. -/
def serviceGetActInfo : Handler Reply := do
  let actInfo ← getActivity
  let actInfo := defaultActivity.foldl (fun info kv => info.setDefault kv.1 kv.2) actInfo
  let poolVal ← getRewardPoolVal
  pure (.sendPlain (actInfo.merge (Fields.ofList
    [("rate_12", .num 2), ("rate_8", .num 20), ("rate_4", .num 78), ("rewardPoolVal", poolVal)])))

/-- `service_getRoomConfig.php`. -/
def serviceGetRoomConfig : Handler Reply :=
  pure (.send 1000 (Fields.ofList [("roomTimerTicks", .num 7)]))

end GameServer

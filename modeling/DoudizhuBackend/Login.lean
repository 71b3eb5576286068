/-
# Entering the game: `login.php` and `register.php`

`login.php` registers or updates the user, then makes the daily roll-over, the daily top-up
of a low score, and hands out the rewards that the back office left in the record.

The roll-over block stands in `login.php` and, letter for letter, in
`service_updateUser.php`; it is `clearYesterdayData` here.

The handlers are those that run after `helper_receiveMsg` accepted the message; `ip` is what
`helper_getIP` gives, the raw text of a request header if the client sends one.
-/
import DoudizhuBackend.GameData

open Php GameData

/-! ## The roll-over of the daily data -/

/-- `$nowDate != $user['lastLoginTime']`. -/
def rolloverDue (now : ℕ) (user : Fields) : Bool :=
  !Value.looseEq (.str (Calendar.date now)) (user.get "lastLoginTime")

/-- What the roll-over writes into the record. -/
def rolloverData (now : ℕ) (unionid : Value) (user : Fields) : Fields :=
  Fields.ofList
    [("unionid", unionid),
     ("lastLoginTime", .str (Calendar.date now)),
     ("loginDayCount", .num ((user.get "loginDayCount").toNum + 1)),
     ("todayRedPackCount", .num 0),
     ("todayRechargeVal", .num 0)]

/-- The copy of the record the handler goes on with: it does not get the new
`lastLoginTime`. -/
def rolledOver (user : Fields) : Fields :=
  ((user.set "loginDayCount" (.num ((user.get "loginDayCount").toNum + 1))).set
    "todayRedPackCount" (.num 0)).set "todayRechargeVal" (.num 0)

/-- Clear user yesterday data. -/
def clearYesterdayData (now : ℕ) (unionid : Value) (user : Fields) : Handler Fields :=
  if rolloverDue now user then do
    updateUser (rolloverData now unionid user)
    pure (rolledOver user)
  else pure user

namespace Login

/-! ## The data of the client -/

/-- `urldecode` on the bytes of a string. -/
def urldecodeBytes : List UInt8 → List UInt8
  | 0x25 :: a :: b :: rest =>
      let ca := Char.ofNat a.toNat
      let cb := Char.ofNat b.toNat
      if isHexDigit ca && isHexDigit cb then
        UInt8.ofNat (digitVal ca * 16 + digitVal cb) :: urldecodeBytes rest
      else 0x25 :: urldecodeBytes (a :: b :: rest)
  | c :: rest => (if c = 0x2b then 0x20 else c) :: urldecodeBytes rest
  | [] => []

/-- `urldecode`: the result need not be valid UTF-8. -/
def urldecode (v : Value) : Value := Value.ofBytes (urldecodeBytes (utf8Encode v.text))

/-- The nickname of a message, decoded if it says so. -/
def nickname (msg : JsonObject) : Value :=
  if msg.isset "urlencode" then urldecode (msg.get "nickname") else msg.get "nickname"

/-- The login type of a message. -/
def loginType (msg : JsonObject) : Value := msg.getD "loginType" (.str "weixin")

/-- `$clientIp`. -/
def clientIp (ip : Value) : Value := if ip.toBool then ip else .str "unknown"

/-- What `login.php` writes into the record at every login. -/
def userData (ip : Value) (msg : JsonObject) : Fields :=
  Fields.ofList
    [("unionid", msg.get "unionid"),
     ("nickname", nickname msg),
     ("sex", msg.get "sex"),
     ("headimgurl", msg.get "headimgurl"),
     ("city", msg.get "city"),
     ("ip", clientIp ip),
     ("password", msg.getD "password" (.str "")),
     ("channel", msg.getD "channel" (.str "none"))]

/-! ## Registration or update -/

/-- Whether the login type equals a text. -/
def isType (msg : JsonObject) (t : String) : Bool := Value.looseEq (loginType msg) (.str t)

/-- The first part of `login.php`: the record is updated or created, or the login is refused
with an `errno`. -/
def enter (now : ℕ) (ip : Value) (msg : JsonObject) (user : Fields) : Handler (Option ℕ) :=
  if user.isEmpty then
    if isType msg "weixin" || isType msg "my_reg" then do
      addUser now (userData ip msg)
      pure none
    else pure (some 5000)
  else if isType msg "weixin" then do
    updateUser (userData ip msg)
    pure none
  else if isType msg "my_login" then
    if Value.looseEq (user.get "password") (msg.getD "password" (.str "")) then pure none
    else pure (some 5001)
  else if isType msg "my_reg" then pure (some 5002)
  else pure none

/-! ## Daily data and rewards -/

/-- `isset($user['loginSwitch']) && $user['loginSwitch'] == 'off'`. -/
def switchedOff (user : Fields) : Bool :=
  user.isset "loginSwitch" && Value.looseEq (user.get "loginSwitch") (.str "off")

/-- `$user['score'] < 24`. -/
def scoreLow (user : Fields) : Bool := Value.looseLt (user.get "score") (.num 24)

/-- What the top-up of the day writes. -/
def topUpData (unionid : Value) : Fields :=
  Fields.ofList
    [("unionid", unionid), ("score", .num 24), ("isAcceptDailyReward", .num 1)]

/-- The daily top-up: the copy of the record, with the new score only, and the coins added. -/
def dailyTopUp (now : ℕ) (unionid : Value) (user : Fields) : Handler (Fields × ℚ) := do
  let added ← isAddCoinToday now unionid
  if added then pure (user, 0)
  else if scoreLow user then do
    updateUser (topUpData unionid)
    pure (user.set "score" (.num 24), 24 - (user.get "score").toNum)
  else pure (user, 0)

/-- `$redPackSwitch`. -/
def redPackSwitch (clientOS : Value) : String :=
  if Value.looseEq clientOS (.str "ios") then "off"
  else if Value.looseEq clientOS (.str "android") then "on"
  else if Value.looseEq clientOS (.str "win32") then "on"
  else "off"

/-- The fields of the record that several replies repeat as they are. -/
def copied (user : Fields) (names : List String) : List (String × Value) :=
  names.map fun f => (f, user.get f)

/-- The reply of a successful login. -/
def replyData (msg : JsonObject) (shortNickName : String) (rewardCoinNum : ℚ) (user : Fields) :
    Fields :=
  Fields.ofList
    (copied user ["unionid", "nickname", "sex", "headimgurl", "city", "roomCardNum", "score",
        "score2", "win", "lose", "ip", "level", "inviteTimes", "redPackVal", "rechargeVal",
        "lastLoginTime", "loginDayCount", "todayRedPackCount", "lastRechargeDate",
        "todayRechargeVal"] ++
      [("shortNickName", .str shortNickName),
       ("userno", .num (user.get "userno").intval),
       ("redPackSwitch", .str (redPackSwitch (msg.get "os"))),
       ("rewardCoinNum", .num rewardCoinNum),
       ("rewardCoin2Num", .num 0),
       ("mobile", user.getD "mobile" (.str "0")),
       ("isExchange1Yuan", user.getD "isExchange1Yuan" (.num 0)),
       ("noticeMsg", .str "")])

/-- The second part of `login.php`, for a user who may enter. -/
def admitted (now : ℕ) (msg : JsonObject) (user : Fields) : Handler Reply := do
  let shortNickName := Helper.substr (user.get "nickname") 4
  let user ← clearYesterdayData now (msg.get "unionid") user
  let (user, rewardCoinNum) ← dailyTopUp now (msg.get "unionid") user
  let user ← addUserReward now (user.setDefault "todayRechargeVal" (.num 0))
  pure (.send 1000 (replyData msg shortNickName rewardCoinNum user))

/-- `login.php`. -/
def login (now : ℕ) (ip : Value) (msg : JsonObject) : Handler Reply := do
  let user ← getUser (msg.get "unionid")
  let refused ← enter now ip msg user
  match refused with
  | some errno => sendErrno errno
  | none => do
      let user ← getUser (msg.get "unionid")
      if user.isEmpty || switchedOff user then sendErrno 1003
      else admitted now msg user

/-! ## `register.php` -/

/-- What `register.php` writes into a new record. -/
def registerData (ip : Value) (msg : JsonObject) : Fields :=
  Fields.ofList
    [("unionid", msg.get "unionid"),
     ("nickname", msg.get "nickname"),
     ("sex", msg.get "sex"),
     ("headimgurl", msg.get "headimgurl"),
     ("city", msg.get "city"),
     ("ip", ip)]

/-- `register.php`; `ip` is the header `Client-IP`. -/
def register (now : ℕ) (ip : Value) (msg : JsonObject) : Handler Reply := do
  let user ← getUser (msg.get "unionid")
  if user.isEmpty then addUser now (registerData ip msg)
  else updateUser (registerData ip msg)
  let user ← getUser (msg.get "unionid")
  if user.isEmpty then sendErrno 1003
  else pure (.send 1000 (Fields.ofList (copied user
    ["unionid", "nickname", "sex", "headimgurl", "city", "roomCardNum", "score", "win", "lose",
     "ip"])))

end Login

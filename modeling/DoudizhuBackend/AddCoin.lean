/-
# Recharging: `addCoin.php` and `weixinPayNotify.php`

`addCoin.php` credits a coin pack after checking the payment with the channel the request
names: Apple's receipt service, the record that WeChat's notification left (or, if that
record does not fit, WeChat's order query), or nothing at all for `win32`.

`weixinPayNotify.php` is called by WeChat; it checks the signature of the notification and
stores the fee under the order number.

The handlers are those that run after `helper_receiveMsg` accepted the message.
-/
import DoudizhuBackend.GameData
import DoudizhuBackend.Md5
import Mathlib.Data.List.Sort

open Php GameData

/-! ## The coin packs -/

namespace AddCoin

/-- The coin packs on sale: coins and price in fen. -/
def packs : List (ℚ × ℚ) :=
  [(30, 600), (60, 1200), (125, 2500), (200, 4000), (340, 6800), (440, 8800)]

/-- The pack the client's `addCoin` selects, by the chain of `$addCoin == 30`, ... . -/
def pack (addCoin : Value) : Option (ℚ × ℚ) :=
  packs.find? fun p => Value.looseEq addCoin (.num p.1)

/-- `$chargeMoney`. -/
def chargeMoney (addCoin : Value) : ℚ := (pack addCoin).elim 0 Prod.snd

/-- `$addCoin` after the chain: the client's own value if it selects a pack, else `0`. -/
def packCoin (addCoin : Value) : Value := (pack addCoin).elim (.num 0) fun _ => addCoin

/-! ## Verification of the payment -/

/-- How a payment is verified. -/
inductive Channel where
  | appstore
  | weixin
  | win32
  deriving DecidableEq, Repr

/-- The branch the platform of a request selects. -/
def channel (platform : Value) : Option Channel :=
  if Value.looseEq platform (.str "appstore") then some .appstore
  else if Value.looseEq platform (.str "android") || Value.looseEq platform (.str "ios_weixin") then
    some .weixin
  else if Value.looseEq platform (.str "win32") then some .win32
  else none

/-- Apple's answer says that the receipt is good and that it is for this game. -/
def receiptOk (ret : AppleReply) : Bool :=
  Value.looseEq ret.status (.num 0) && Value.looseEq ret.bid (.str "com.ywxx.doudizhu8")

/-- `$val == 1`: the order is already in `appstore_orderid_set`. -/
def orderUsed (val : Value) : Bool := Value.looseEq val (.num 1)

/-- The App Store branch: Apple confirms the receipt, and its transaction has not been used yet. -/
def verifyAppstore (receipt_data : Value) : Handler Bool := do
  let ret ← issue (.verifyReceipt receipt_data)
  if receiptOk ret then do
    let val ← getAppstoreOrderId ret.transaction_id
    if orderUsed val then pure false
    else do
      setAppstoreOrderId ret.transaction_id (.num 1)
      pure true
  else pure false

/-- `$record == $chargeMoney && $record > 0`. -/
def recordFits (record : Value) (money : ℚ) : Bool :=
  Value.looseEq record (.num money) && Value.looseLt (.num 0) record

/-- The order query says that the order is paid with this fee. -/
def queryFits (ret : WeixinReply) (money : ℚ) : Bool :=
  Value.looseEq (xmlValue ret.return_code) (.str "SUCCESS") &&
    Value.looseEq (xmlValue ret.result_code) (.str "SUCCESS") &&
    Value.looseEq (xmlValue ret.cash_fee) (.num money)

/-- The WeChat branch: the recorded fee is the price and is cleared, or the order query confirms it. -/
def verifyWeixin (receipt_data : Value) (money : ℚ) : Handler Bool := do
  let record ← getOutTradeNoRecord receipt_data
  if recordFits record money then do
    clearOutTradeNoRecord receipt_data
    pure true
  else do
    let ret ← issue (.orderquery receipt_data)
    pure (queryFits ret money)

/-- The verification of a payment, by its channel. -/
def verify (ch : Channel) (receipt_data : Value) (money : ℚ) : Handler Bool :=
  match ch with
  | .appstore => verifyAppstore receipt_data
  | .weixin => verifyWeixin receipt_data money
  | .win32 => pure true

/-! ## Crediting the user -/

/-- A row of `op_recharge_record`. -/
def rechargeRecord (user : Fields) (money status : ℚ) : List (String × Value) :=
  [("userno", user.get "userno"),
   ("unionid", user.get "unionid"),
   ("nickname", user.get "nickname"),
   ("score", user.get "score"),
   ("redPackVal", user.get "redPackVal"),
   ("rechargeVal", user.get "rechargeVal"),
   ("rechargeMoney", .num money),
   ("status", .num status),
   ("loginDayCount", user.get "loginDayCount")]

/-- The user's copy with defaults for `lastRechargeDate` and `todayRechargeVal`. -/
def withRechargeDefaults (user : Fields) : Fields :=
  (user.setDefault "lastRechargeDate" (.str "")).setDefault "todayRechargeVal" (.num 0)

/-- The coins credited: the first recharge ever and the first one of the day turn the pack of
30 coins into 45. -/
def creditedCoin (user : Fields) (addCoin : Value) : Value :=
  if Value.looseEq (user.get "rechargeVal") (.num 0) && Value.looseEq addCoin (.num 30) then .num 45
  else if Value.looseEq (user.get "todayRechargeVal") (.num 0) && Value.looseEq addCoin (.num 30) then
    .num 45
  else addCoin

/-- The score after the recharge. -/
def newScore (user : Fields) (coin : Value) : ℚ := (user.get "score").toNum + coin.toNum

/-- What is written into the user's record. -/
def updateData (now : ℕ) (unionid : Value) (user : Fields) (coin : Value) (money : ℚ) : Fields :=
  Fields.ofList
    [("unionid", unionid),
     ("score", .num (newScore user coin)),
     ("isAcceptDailyReward", .num 0),
     ("rechargeVal", .num ((user.get "rechargeVal").toNum + money)),
     ("todayRechargeVal", .num ((user.get "todayRechargeVal").toNum + money)),
     ("lastRechargeDate", .str (Calendar.date now))]

/-- The row of `op_score_log` for a recharge. -/
def scoreLog (now : ℕ) (user : Fields) (coin : Value) : Fields :=
  addScoreLog now user (.num (newScore user coin - (user.get "score").toNum))
    (.num (newScore user coin)) "recharge"

/-- The part of `addCoin.php` after a payment was accepted for an existing user. -/
def credit (now : ℕ) (msg : JsonObject) (user : Fields) : Handler Reply := do
  let money := chargeMoney (msg.get "addCoin")
  addRewardPool (.num (money * (5 / 100)))
  let user := withRechargeDefaults user
  let coin := creditedCoin user (packCoin (msg.get "addCoin"))
  let _ ← insertAddScoreLogMysql (scoreLog now user coin)
  updateUser (updateData now (msg.get "unionid") user coin money)
  addChargeCount (.num money)
  Helper.rechargeRecord (msg.get "unionid") (.str ("coin_" ++ coin.text)) (.str (Calendar.dateTime now))
    (.num (money / 100)) (user.get "channel")
  let _ ← addRechargeRecordMysql (Fields.ofList (rechargeRecord user money 1))
  pure (.send 1000 (Fields.ofList [("coinNum", .num (newScore user coin))]))

/-- The part of `addCoin.php` after the payment check. -/
def settle (now : ℕ) (msg : JsonObject) (isValid : Bool) : Handler Reply := do
  let user ← getUser (msg.get "unionid")
  if user.isEmpty then sendErrno 1003
  else if isValid then credit now msg user
  else do
    let _ ← addRechargeRecordMysql (Fields.ofList
      (rechargeRecord user (chargeMoney (msg.get "addCoin")) 0 ++
        [("time", .str (Calendar.dateTime now))]))
    sendErrno 1001

/-- `addCoin.php`. -/
def addCoin (now : ℕ) (msg : JsonObject) : Handler Reply :=
  match channel (msg.get "platform") with
  | none => sendErrno 1003
  | some ch => do
      let isValid ← verify ch (msg.get "receipt_data") (chargeMoney (msg.get "addCoin"))
      settle now msg isValid

end AddCoin

/-! ## `weixinPayNotify.php` -/

namespace WeixinPay

/-- The string that is signed: the elements in the order of their names, without `sign`, and
the merchant's key. -/
def stringA (rowdata : Fields) : String :=
  let sorted := rowdata.entries.insertionSort fun a b => a.1 ≤ b.1
  let pairs := sorted.filter fun kv => kv.1 ≠ "sign"
  String.join (pairs.map fun kv => kv.1 ++ "=" ++ kv.2.text ++ "&") ++
    "key=14Nt0EmPY6e741Pan5SHmBeiWQQ3wQwE"

/-- The signature the notification should carry. -/
def sign (rowdata : Fields) : String :=
  String.ofList ((md5 (stringA rowdata)).toList.map Char.toUpper)

/-- `$sign == $rowdata['sign']`. -/
def signAccepted (rowdata : Fields) : Bool :=
  Value.looseEq (.str (sign rowdata)) (rowdata.get "sign")

/-- The elements as they are stored: the condition `$rowdata['return_code'] = "SUCCESS"` is an
assignment, and a missing `attach` becomes `none`. -/
def storedRowdata (rowdata : Fields) : Fields :=
  (rowdata.set "return_code" (.str "SUCCESS")).setDefault "attach" (.str "none")

/-- `weixinPayNotify.php`; `none` is an empty request body. -/
def weixinPayNotify : Option Fields → Handler Reply
  | none => pure .quit
  | some rowdata =>
      if signAccepted rowdata then do
        let stored := storedRowdata rowdata
        insertWeixinPayInfo (rowdata.get "out_trade_no") (rowdata.get "transaction_id") stored
          (rowdata.get "cash_fee")
        let _ ← insertWeixinOrderInfoMysql stored
        pure .xmlOk
      else pure .xmlOk

end WeixinPay

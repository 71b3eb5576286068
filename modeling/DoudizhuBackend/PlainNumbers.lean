/-
# Plain numbers in requests and records

PHP 5 adds 64-bit integers, and doubles where a sum overflows or a fraction comes in.  A double is
rounded to 14 digits when `json_encode` writes it, and a double that is infinite cannot be written at
all: the record is lost.  None of this happens to whole numbers of at most 13 digits and to their sums
(`IsPlain`).

Results about whole runs ask for plain numbers before each request: in all records (`Store.Plain`), and in the
data that the request brings.
-/
import DoudizhuBackend.UserRecords

open Php GameData GameServer

/-- The fields of records and requests that the handlers compute with.  They may hold numbers as texts. -/
def computedNames : List String :=
  ["score", "roomCardNum", "redPackVal", "totalGetRedPackVal", "rechargeVal", "todayRechargeVal",
    "todayRedPackCount", "loginDayCount", "win", "lose", "inviteTimes", "getRedPackTime", "add_score",
    "add_roomCardNum", "add_redPackVal", "addCoin", "coinVal", "cashVal", "costRoomCard", "room_card_num",
    "redPackMoney", "rewardPoolVal", "rate_120", "rate_80", "rate_40"]

/-- All numbers in an array are plain, and so are the texts that the handlers compute with. -/
def Php.Fields.Plain (u : Fields) : Prop :=
  (∀ kv ∈ u.entries, kv.2.IsExact) ∧ u.Counts computedNames

instance (u : Fields) : Decidable u.Plain := inferInstanceAs (Decidable (_ ∧ _))

/-- All records have plain numbers. -/
def Store.Plain (s : Store) : Prop :=
  ∀ e ∈ (s.hash .user).entries, match (e.2 : Option JsonObject) with
    | some o => o.fields.Plain
    | none => True

instance (s : Store) : Decidable s.Plain :=
  @List.decidableBAll _ _ (fun e => match e with
    | ⟨_, some o⟩ => inferInstanceAs (Decidable (Fields.Plain (JsonObject.fields o)))
    | ⟨_, none⟩ => isTrue trivial) _

/-- The scores in the history of a room result are plain. -/
def RoomResult.Plain (r : RoomResult) : Prop := ∀ e ∈ r.history, IsPlain e.s.toNum

instance (r : RoomResult) : Decidable r.Plain := inferInstanceAs (Decidable (∀ e ∈ _, _))

namespace GameServer

/-- The numbers in a message to `service_updateUser.php` are plain. -/
def UpdateMsg.Plain (msg : UpdateMsg) : Prop :=
  msg.userData.fields.Plain ∧ ∀ r ∈ msg.roomResult, r.Plain

instance (msg : UpdateMsg) : Decidable msg.Plain := inferInstanceAs (Decidable (_ ∧ _))

/-- The numbers in a message to `service_gateWay.php` are plain. -/
def GatewayMsg.Plain (msg : GatewayMsg) : Prop := msg.fields.fields.Plain ∧ msg.roomResult.Plain

instance (msg : GatewayMsg) : Decidable msg.Plain := inferInstanceAs (Decidable (_ ∧ _))

end GameServer

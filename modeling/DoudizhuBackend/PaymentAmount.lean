/-
# The pack that is credited is the pack that was paid

What one `addCoin.php` request does to the user's score, in every state of the stores: it rises
by the coins of the pack the client names, if the branch of the platform accepts the payment.
The branches do not all compare the amount that was paid:

* `win32` accepts everything;
* `appstore` never looks at the product of the receipt;
* the record of a WeChat order is written by every notification whose signature is *loosely*
  equal to the right one, whatever its `return_code` (the source assigns it instead of
  comparing it), and a request that finds the record does not ask further;
* the client's `addCoin` may be `true`, which selects the pack of 30 coins and counts for 1.

`credit_sound_iff` says that these are all the ways in which a score is raised without a
confirmed payment of the price.
-/
import DoudizhuBackend.UserRecords
import Mathlib.Tactic.Linarith

open Php GameData AddCoin WeixinPay

namespace PaymentAmount

/-! ## Confirmed payments -/

/-- The notification is signed by WeChat and reports a success. -/
def ValidNotification (rowdata : Fields) : Prop :=
  rowdata.get "sign" = .str (sign rowdata) ∧ rowdata.get "return_code" = .str "SUCCESS"

/-- The order query confirms the payment of `amount`. -/
def QueryConfirms (ret : WeixinReply) (amount : ℚ) : Prop :=
  ret.return_code = some "SUCCESS" ∧ ret.result_code = some "SUCCESS" ∧
    ∃ fee, ret.cash_fee = some fee ∧ numericPrefix fee = amount

/-- The channel named by the request has confirmed a payment of `amount` for its receipt.
`price` gives the price of an App Store product, `H` are the notifications received so far. -/
def Confirmed (w : World) (price : Value → Option ℚ) (H : List Fields) (msg : JsonObject)
    (amount : ℚ) : Prop :=
  match channel (msg.get "platform") with
  | some .appstore =>
      receiptOk (w.verifyReceipt (msg.get "receipt_data")) = true ∧
        price (w.verifyReceipt (msg.get "receipt_data")).product_id = some amount
  | some .weixin =>
      (∃ rowdata ∈ H, ValidNotification rowdata ∧
        (rowdata.get "out_trade_no").text = (msg.get "receipt_data").text ∧
        ((rowdata.get "cash_fee").intval : ℚ) = amount) ∨
      QueryConfirms (w.orderquery (msg.get "receipt_data")) amount
  | _ => False

/-! ## The packs -/

theorem pack_mem {v : Value} {p : ℚ × ℚ} (h : pack v = some p) : p ∈ packs :=
  List.mem_of_find?_eq_some h

theorem looseEq_of_pack {v : Value} {p : ℚ × ℚ} (h : pack v = some p) :
    Value.looseEq v (.num p.1) = true := by
  simpa using List.find?_some h

/-- A value that selects a pack counts for its coins, unless it is `true`. -/
theorem toNum_of_pack {v : Value} {p : ℚ × ℚ} (h : pack v = some p) (hv : v ≠ .bool true) :
    v.toNum = p.1 := by
  have heq := looseEq_of_pack h
  have hp := pack_mem h
  have hpos : p.1 ≠ 0 := by
    simp only [packs, List.mem_cons, List.not_mem_nil, or_false] at hp
    rcases hp with rfl | rfl | rfl | rfl | rfl | rfl <;> decide +kernel
  cases v with
  | null => simp [Value.looseEq, Value.toBool, hpos] at heq
  | bool b => simp_all [Value.looseEq, Value.toBool]
  | num q => simpa [Value.looseEq] using heq
  | str s => simpa [Value.looseEq] using heq
  | bytes b => simpa [Value.looseEq] using heq

/-- A raise of the score that a pack explains: its coins, or 45 for the pack of 30. -/
def Explains (raise : ℚ) (p : ℚ × ℚ) : Prop := raise = p.1 ∨ (p.1 = 30 ∧ raise = 45)

/-- A raise is explained by one pack only. -/
theorem explains_unique {raise : ℚ} {p q : ℚ × ℚ} (hp : p ∈ packs) (hq : q ∈ packs)
    (h : Explains raise p) (h' : Explains raise q) : p = q := by
  simp only [packs, List.mem_cons, List.not_mem_nil, or_false] at hp hq
  unfold Explains at h h'
  rcases hp with rfl | rfl | rfl | rfl | rfl | rfl <;>
    rcases hq with rfl | rfl | rfl | rfl | rfl | rfl <;>
    first
    | rfl
    | (exfalso; norm_num at h h'; rcases h with h | h <;> rcases h' with h' | h' <;> linarith)

/-! ## What a request does to the score -/

section Request

variable (w : World) (s : Store) (now : ℕ) (msg : JsonObject)

/-- Whether the branch of the platform accepts the payment. -/
def verified : Bool :=
  match channel (msg.get "platform") with
  | some .appstore =>
      receiptOk (w.verifyReceipt (msg.get "receipt_data")) &&
        !orderUsed (((s.hash .appstoreOrderidSet).lookup
          (w.verifyReceipt (msg.get "receipt_data")).transaction_id.text).getD .null)
  | some .weixin =>
      recordFits (((s.hash .wexinOutTradeNoSet).lookup (msg.get "receipt_data").text).elim .null
          fun fee => .num fee) (chargeMoney (msg.get "addCoin")) ||
        queryFits (w.orderquery (msg.get "receipt_data")) (chargeMoney (msg.get "addCoin"))
  | some .win32 => true
  | none => false

/-- The check of the payment finds what `verified` says. -/
theorem verify_run {ch : Channel} (hch : channel (msg.get "platform") = some ch) :
    ((verify ch (msg.get "receipt_data") (chargeMoney (msg.get "addCoin"))).run (exec w) s).1 =
      verified w s msg := by
  cases ch with
  | win32 => simp [verify, verified, hch]
  | appstore =>
      by_cases hreceipt : receiptOk (w.verifyReceipt (msg.get "receipt_data")) = true
      · by_cases hused : orderUsed (((s.hash .appstoreOrderidSet).lookup
          (w.verifyReceipt (msg.get "receipt_data")).transaction_id.text).getD .null) = true
        · simp [verify, verifyAppstore, getAppstoreOrderId, verified, hch, exec, hreceipt, hused]
        · simp [verify, verifyAppstore, getAppstoreOrderId, setAppstoreOrderId, verified, hch, exec,
            hreceipt, hused]
      · simp [verify, verifyAppstore, verified, hch, exec, hreceipt]
  | weixin =>
      by_cases hfits : recordFits (((s.hash .wexinOutTradeNoSet).lookup
          (msg.get "receipt_data").text).elim .null fun fee => .num fee)
          (chargeMoney (msg.get "addCoin")) = true
      · simp [verify, verifyWeixin, getOutTradeNoRecord, clearOutTradeNoRecord, verified, hch, exec,
          hfits]
      · simp [verify, verifyWeixin, getOutTradeNoRecord, verified, hch, exec, hfits]

/-- The parts of the stores that the check of a payment writes. -/
def PaymentParts (q : StorePart) : Prop :=
  q = .hash .appstoreOrderidSet ∨ q = .hash .wexinOutTradeNoSet

theorem verify_writes (ch : Channel) (r : Value) (money : ℚ) :
    Handler.Writes PaymentParts (verify ch r money) := by
  cases ch with
  | win32 => exact Handler.Writes.ret _
  | appstore =>
      refine Handler.Writes.bind (Handler.Writes.issue (by simp [Cmd.part])) fun ret => ?_
      refine Handler.Writes.ite ?_ (Handler.Writes.ret _)
      refine Handler.Writes.bind (Handler.Writes.bind (Handler.Writes.issue (by simp [Cmd.part]))
        fun _ => Handler.Writes.ret _) fun val => ?_
      refine Handler.Writes.ite (Handler.Writes.ret _) ?_
      exact Handler.Writes.bind (Handler.Writes.issue (by simp [Cmd.part, PaymentParts])) fun _ =>
        Handler.Writes.ret _
  | weixin =>
      refine Handler.Writes.bind (Handler.Writes.bind (Handler.Writes.issue (by simp [Cmd.part]))
        fun _ => Handler.Writes.ret _) fun record => ?_
      refine Handler.Writes.ite ?_ ?_
      · exact Handler.Writes.bind (Handler.Writes.issue (by simp [Cmd.part, PaymentParts])) fun _ =>
          Handler.Writes.ret _
      · exact Handler.Writes.bind (Handler.Writes.issue (by simp [Cmd.part])) fun _ =>
          Handler.Writes.ret _

theorem verify_record (ch : Channel) (r : Value) (money : ℚ) (k : String) :
    ((verify ch r money).run (exec w) s).2.record k = s.record k :=
  Store.record_congr ((verify_writes ch r money).run_hash (by simp [PaymentParts]) s)

/-- The first recharge of all, or of the day. -/
def bonus (r : Fields) : Bool :=
  Value.looseEq (r.get "rechargeVal") (.num 0) ||
    Value.looseEq (r.getD "todayRechargeVal" (.num 0)) (.num 0)

/-- The coins credited to a user with the record `r`. -/
def coins (r : Fields) (addCoin : Value) : Value :=
  if bonus r && Value.looseEq (packCoin addCoin) (.num 30) then .num 45 else packCoin addCoin

theorem coins_of_none {r : Fields} {v : Value} (h : pack v = none) : coins r v = .num 0 := by
  have hpack : packCoin v = .num 0 := by rw [packCoin, h]; rfl
  rw [coins, hpack, if_neg]
  rw [Bool.and_eq_true, not_and]
  intro _
  decide +kernel

/-- The coins only depend on the stored record, not on the copy with its defaults. -/
theorem creditedCoin_eq {r user : Fields} (h : ∀ f, f ≠ "userno" → user.get f = r.get f)
    (addCoin : Value) :
    creditedCoin (withRechargeDefaults user) (packCoin addCoin) = coins r addCoin := by
  have htotal : (withRechargeDefaults user).get "rechargeVal" = r.get "rechargeVal" := by
    simp [withRechargeDefaults, Fields.get_setDefault, h]
  have htoday : (withRechargeDefaults user).get "todayRechargeVal" =
      r.getD "todayRechargeVal" (.num 0) := by
    simp [withRechargeDefaults, Fields.get_setDefault, Fields.getD, Fields.isset, h]
  unfold creditedCoin coins bonus
  rw [htotal, htoday]
  cases Value.looseEq (r.get "rechargeVal") (.num 0) <;>
    cases Value.looseEq (packCoin addCoin) (.num 30) <;> simp

theorem credit_errno (user : Fields) :
    ((credit now msg user).run (exec w) s).1.errno? = some 1000 := by
  simp [credit]

theorem updateData_encodable (user : Fields) (coin : Value) (money : ℚ) :
    (updateData now (msg.get "unionid") user coin money).Encodable := by
  refine Fields.encodable_ofList ?_
  simp only [List.mem_cons, List.not_mem_nil, or_false, forall_eq_or_imp, forall_eq]
  exact ⟨msg.encodable_get _, rfl, rfl, rfl, rfl, rfl⟩

/-- The records after a credit are those after its `updateUser`. -/
theorem credit_record (user : Fields) (k : String) :
    ∃ s', s'.hash .user = s.hash .user ∧
      ((credit now msg user).run (exec w) s).2.record k =
        ((updateUser (updateData now (msg.get "unionid") (withRechargeDefaults user)
          (creditedCoin (withRechargeDefaults user) (packCoin (msg.get "addCoin")))
          (chargeMoney (msg.get "addCoin")))).run (exec w) s').2.record k := by
  unfold credit
  simp only [Prog.run_bind, Prog.pure_eq_ret, Prog.run_ret]
  rw [(Handler.quiet_addRechargeRecordMysql _).record, Helper.rechargeRecord,
    (Handler.quiet_sitePage _ _).record, addChargeCount, (Handler.quiet_addToCounter _ _).record]
  refine ⟨_, ?_, rfl⟩
  rw [insertAddScoreLogMysql, Prog.run_call, exec_hash_of_part (by simp [Cmd.part]),
    (Handler.quiet_addRewardPool _).hash]

/-- The score after a credit. -/
theorem credit_score {user : Fields} (hset : msg.isset "unionid" = true)
    (hst : storableKey (userKey (msg.get "unionid"))) :
    (((credit now msg user).run (exec w) s).2.fieldsAt (userKey (msg.get "unionid"))).get "score" =
      .num (newScore (withRechargeDefaults user)
        (creditedCoin (withRechargeDefaults user) (packCoin (msg.get "addCoin")))) := by
  obtain ⟨s', -, hrecord⟩ := credit_record w s now msg user (userKey (msg.get "unionid"))
  have hget : (updateData now (msg.get "unionid") (withRechargeDefaults user)
      (creditedCoin (withRechargeDefaults user) (packCoin (msg.get "addCoin")))
      (chargeMoney (msg.get "addCoin"))).get "unionid" = msg.get "unionid" := by
    simp [updateData, Fields.get_ofList_cons]
  rw [Store.fieldsAt_congr hrecord, updateUser_get w s' ?_ ?_ hst (updateData_encodable _ _ _ _ _)
    (by decide)]
  · simp [updateData, Fields.mem_ofList, Fields.get_ofList_cons]
  · rw [Fields.isset_eq_true, hget]
    exact Fields.isset_eq_true.mp hset
  · rw [hget]

/-- Without a `unionid` nothing is written. -/
theorem credit_record_of_unset (user : Fields) (hset : msg.isset "unionid" = false) (k : String) :
    ((credit now msg user).run (exec w) s).2.record k = s.record k := by
  obtain ⟨s', hs', hrecord⟩ := credit_record w s now msg user k
  rw [hrecord, updateUser_run_of_unset, Store.record_congr hs']
  simp [updateData, Fields.isset, Fields.get_ofList_cons, JsonObject.isset_eq_false.mp hset]

end Request

/-! ## One whole request -/

section Whole

variable (w : World) (price : Value → Option ℚ) (H : List Fields) (s : Store) (now : ℕ)
  (msg : JsonObject)

/-- The record of the user of a request. -/
def recordOf : Fields := s.fieldsAt (userKey (msg.get "unionid"))

/-- By how much a request raises the score of its user. -/
def raise : ℚ :=
  ((recordOf ((AddCoin.addCoin now msg).run (exec w) s).2 msg).get "score").toNum -
    ((recordOf s msg).get "score").toNum

/-- The request answers `1000` and raises the score. -/
def Credits : Prop :=
  ((AddCoin.addCoin now msg).run (exec w) s).1.errno? = some 1000 ∧ 0 < raise w s now msg

/-- The request is accepted: the branch of its platform lets it pass, it selects a pack, and it
is for a user with a record. -/
structure Accepted : Prop where
  verified : verified w s msg = true
  record : s.record (userKey (msg.get "unionid")) ≠ none
  isset : msg.isset "unionid" = true
  pack : pack (msg.get "addCoin") ≠ none

variable {w s now msg}

theorem addCoin_run (now : ℕ) {ch : Channel} (hch : channel (msg.get "platform") = some ch) :
    ∃ s', (∀ k, s'.record k = s.record k) ∧
      (AddCoin.addCoin now msg).run (exec w) s =
        (settle now msg (verified w s msg)).run (exec w) s' := by
  refine ⟨_, fun k => verify_record w s ch (msg.get "receipt_data")
    (chargeMoney (msg.get "addCoin")) k, ?_⟩
  unfold AddCoin.addCoin
  rw [hch]
  simp only [Prog.run_bind, verify_run w s msg hch]

/-- A request that is not credited leaves the records alone. -/
theorem settle_false (s : Store) :
    ((settle now msg false).run (exec w) s).1.errno? ≠ some 1000 := by
  unfold settle
  simp only [Prog.run_bind, Prog.run_ite]
  split
  · simp [sendErrno]
  · simp [sendErrno]

theorem settle_true_none (h : s.record (userKey (msg.get "unionid")) = none) :
    ((settle now msg true).run (exec w) s).1.errno? ≠ some 1000 := by
  have hempty := (getUser_found w s (msg.get "unionid")).isEmpty
  rw [h] at hempty
  unfold settle
  simp [hempty, sendErrno]

theorem settle_true (now : ℕ) {o : JsonObject} (h : s.record (userKey (msg.get "unionid")) = some o) :
    ∃ user s', (∀ f, f ≠ "userno" → user.get f = o.get f) ∧ (∀ k, s'.record k = s.record k) ∧
      (settle now msg true).run (exec w) s = (credit now msg user).run (exec w) s' := by
  have hfound := getUser_found w s (msg.get "unionid")
  refine ⟨((getUser (msg.get "unionid")).run (exec w) s).1, _, fun f hf => ?_,
    getUser_record w s (msg.get "unionid"), ?_⟩
  · rw [hfound.get f hf, h]
    rfl
  · have hempty := hfound.isEmpty
    rw [h] at hempty
    unfold settle
    simp [hempty]

/-- **What an accepted request does**: it answers `1000`, and the score rises by the coins. -/
theorem raise_of_accepted (now : ℕ) (h : Accepted w s msg) :
    ((AddCoin.addCoin now msg).run (exec w) s).1.errno? = some 1000 ∧
      raise w s now msg = (coins (recordOf s msg) (msg.get "addCoin")).toNum := by
  obtain ⟨ch, hch⟩ : ∃ ch, channel (msg.get "platform") = some ch := by
    cases hch : channel (msg.get "platform") with
    | none => have := h.verified; simp [verified, hch] at this
    | some ch => exact ⟨ch, rfl⟩
  obtain ⟨o, ho⟩ := Option.ne_none_iff_exists'.mp h.record
  obtain ⟨s₁, hs₁, hrun⟩ := addCoin_run (w := w) (s := s) now hch
  rw [h.verified] at hrun
  obtain ⟨user, s₂, huser, hs₂, hrun'⟩ := settle_true (w := w) now ((hs₁ _).trans ho)
  have hold : recordOf s msg = o.fields := Store.fieldsAt_of_record ho
  have hscore : (withRechargeDefaults user).get "score" = o.get "score" := by
    simp [withRechargeDefaults, Fields.get_setDefault, huser]
  refine ⟨by rw [hrun, hrun']; exact credit_errno _ _ _ _ _, ?_⟩
  rw [raise, recordOf, hrun, hrun', credit_score w s₂ now msg h.isset (Store.storable_of_record ho),
    creditedCoin_eq (r := o.fields) huser, hold, newScore, hscore, Value.toNum_num]
  exact add_sub_cancel_left _ _

/-- A request that is not accepted does not both answer `1000` and raise the score. -/
theorem accepted_of_credits (h : Credits w s now msg) : Accepted w s msg := by
  obtain ⟨herrno, hraise⟩ := h
  cases hch : channel (msg.get "platform") with
  | none => simp [AddCoin.addCoin, hch, sendErrno] at herrno
  | some ch =>
      obtain ⟨s₁, hs₁, hrun⟩ := addCoin_run (w := w) (s := s) now hch
      rw [hrun] at herrno
      cases hver : verified w s msg with
      | false => rw [hver] at herrno; exact absurd herrno (settle_false s₁)
      | true =>
          rw [hver] at herrno hrun
          cases ho : s.record (userKey (msg.get "unionid")) with
          | none => exact absurd herrno (settle_true_none ((hs₁ _).trans ho))
          | some o =>
              obtain ⟨user, s₂, huser, hs₂, hrun'⟩ :=
                settle_true (w := w) now ((hs₁ _).trans ho)
              have hsame : recordOf s₂ msg = recordOf s msg :=
                Store.fieldsAt_congr ((hs₂ _).trans (hs₁ _))
              have hset : msg.isset "unionid" = true := by
                by_contra hset
                rw [Bool.not_eq_true] at hset
                rw [raise, hrun, hrun', recordOf,
                  Store.fieldsAt_congr (credit_record_of_unset w s₂ now msg user hset _),
                  ← recordOf, hsame, sub_self] at hraise
                exact lt_irrefl 0 hraise
              refine ⟨hver, by simp [ho], hset, fun hpack => ?_⟩
              -- no pack: the coins are `0`
              have hscore : (withRechargeDefaults user).get "score" = o.get "score" := by
                simp [withRechargeDefaults, Fields.get_setDefault, huser]
              rw [raise, recordOf, hrun, hrun',
                credit_score w s₂ now msg hset (Store.storable_of_record ho),
                creditedCoin_eq (r := o.fields) huser, coins_of_none hpack, newScore, hscore,
                recordOf, Store.fieldsAt_of_record ho] at hraise
              simp [JsonObject.get] at hraise

/-! ## When the pack that is credited was paid -/

/-- The claim on one request: if it is credited, some pack explains the raise of the score, and
the channel has confirmed a payment of the price of that pack. -/
def Sound (w : World) (price : Value → Option ℚ) (H : List Fields) (s : Store) (now : ℕ)
    (msg : JsonObject) : Prop :=
  Credits w s now msg →
    ∃ p ∈ packs, Explains (raise w s now msg) p ∧ Confirmed w price H msg p.2

/-- The record of the order that a request finds. -/
def orderRecord (s : Store) (msg : JsonObject) : Value :=
  ((s.hash .wexinOutTradeNoSet).lookup (msg.get "receipt_data").text).elim .null fun fee => .num fee

/-- The request goes none of the ways around the price: the amount is not `true`
(unless the pack of 30 is raised to 45 anyway); the platform is not `win32`; the App Store
product costs what the pack costs; the record of a WeChat order, where it is taken for the payment and the
query would not confirm it, is the fee of a notification with the right signature and a success. -/
def Priced (w : World) (price : Value → Option ℚ) (H : List Fields) (s : Store)
    (msg : JsonObject) : Prop :=
  (msg.get "addCoin" = .bool true → bonus (recordOf s msg) = true) ∧
  match channel (msg.get "platform") with
  | some .appstore =>
      price (w.verifyReceipt (msg.get "receipt_data")).product_id =
        some (chargeMoney (msg.get "addCoin"))
  | some .weixin =>
      recordFits (orderRecord s msg) (chargeMoney (msg.get "addCoin")) = true →
      queryFits (w.orderquery (msg.get "receipt_data")) (chargeMoney (msg.get "addCoin")) = false →
      ∃ rowdata ∈ H, ValidNotification rowdata ∧
        (rowdata.get "out_trade_no").text = (msg.get "receipt_data").text ∧
        Value.num (rowdata.get "cash_fee").intval = orderRecord s msg
  | _ => False

/-- A record that fits is the price. -/
theorem orderRecord_of_fits {s : Store} {msg : JsonObject} {money : ℚ}
    (h : recordFits (orderRecord s msg) money = true) : orderRecord s msg = .num money := by
  unfold orderRecord at h ⊢
  generalize (s.hash .wexinOutTradeNoSet).lookup (msg.get "receipt_data").text = found at h ⊢
  rw [recordFits, Bool.and_eq_true] at h
  cases found with
  | none => exact absurd h.2 (by decide +kernel)
  | some fee => exact congrArg Value.num (by simpa [Value.looseEq] using h.1)

theorem price_ne_zero {p : ℚ × ℚ} (hp : p ∈ packs) : p.2 ≠ 0 := by
  simp only [packs, List.mem_cons, List.not_mem_nil, or_false] at hp
  rcases hp with rfl | rfl | rfl | rfl | rfl | rfl <;> decide +kernel

theorem looseEq_success (c : Option String) :
    Value.looseEq (xmlValue c) (.str "SUCCESS") = true ↔ c = some "SUCCESS" := by
  cases c with
  | none => decide
  | some t =>
      constructor
      · intro h
        have hcomm : Value.looseEq (.str "SUCCESS") (.str t) = true := by
          rw [Value.looseEq_str_comm]
          exact h
        rw [Value.eq_of_looseEq_str (by decide +kernel) hcomm]
      · intro h
        rw [h]
        exact Value.looseEq_str_self "SUCCESS"

/-- The code's check of the order query is the confirmation. -/
theorem queryFits_iff {ret : WeixinReply} {money : ℚ} (hmoney : money ≠ 0) :
    queryFits ret money = true ↔ QueryConfirms ret money := by
  unfold queryFits QueryConfirms
  rw [Bool.and_eq_true, Bool.and_eq_true, looseEq_success, looseEq_success, and_assoc]
  have hfee : Value.looseEq (xmlValue ret.cash_fee) (.num money) = true ↔
      ∃ fee, ret.cash_fee = some fee ∧ numericPrefix fee = money := by
    cases ret.cash_fee with
    | none => simp [xmlValue, Value.looseEq, Value.toBool, hmoney]
    | some fee => simp [xmlValue, Value.looseEq, Value.toNum]
  rw [hfee]

variable {price H}

/-- The coins of a selected pack explain the raise by that pack, except for the amount `true`. -/
theorem explains_coins {r : Fields} {v : Value} {p : ℚ × ℚ} (h : pack v = some p) :
    Explains (coins r v).toNum p ↔ (v = .bool true → bonus r = true) := by
  have hpack : packCoin v = v := by rw [packCoin, h]; rfl
  by_cases hv : v = .bool true
  · subst hv
    have hp : p = (30, 600) := by
      have hsome : pack (.bool true) = some (30, 600) := by decide +kernel
      exact (Option.some.inj (hsome.symm.trans h)).symm
    subst hp
    have hloose : Value.looseEq (.bool true) (.num 30) = true := by decide +kernel
    rw [coins, hpack, hloose, Bool.and_true]
    cases bonus r with
    | true => simp [Explains]
    | false => simp only [Explains]; decide +kernel
  · simp only [hv, false_imp_iff, iff_true]
    unfold coins
    rw [hpack]
    split
    · rename_i hbonus
      rw [Bool.and_eq_true] at hbonus
      -- a value that equals 30 selects the first pack
      have hfirst : pack v = some (30, 600) := by
        simp [pack, packs, hbonus.2]
      rw [hfirst] at h
      cases h
      exact Or.inr ⟨rfl, rfl⟩
    · exact Or.inl (toNum_of_pack h hv)

theorem chargeMoney_of_pack {v : Value} {p : ℚ × ℚ} (h : pack v = some p) :
    chargeMoney v = p.2 := by
  rw [chargeMoney, h]
  rfl

/-- The raise of the score by a credited request is positive. -/
theorem coins_pos {r : Fields} {v : Value} {p : ℚ × ℚ} (h : pack v = some p) :
    0 < (coins r v).toNum := by
  have hpack : packCoin v = v := by rw [packCoin, h]; rfl
  have hp := pack_mem h
  unfold coins
  rw [hpack]
  split
  · decide +kernel
  · by_cases hv : v = .bool true
    · rw [hv]; decide +kernel
    · rw [toNum_of_pack h hv]
      simp only [packs, List.mem_cons, List.not_mem_nil, or_false] at hp
      rcases hp with rfl | rfl | rfl | rfl | rfl | rfl <;> norm_num

/-- The two readings of the condition on the channel. -/
theorem confirmed_iff (h : Accepted w s msg) {p : ℚ × ℚ} (hp : pack (msg.get "addCoin") = some p) :
    (Confirmed w price H msg p.2 ∧ (msg.get "addCoin" = .bool true → bonus (recordOf s msg) = true)) ↔
      Priced w price H s msg := by
  have hver := h.verified
  have hmoney := chargeMoney_of_pack hp
  have hne : p.2 ≠ 0 := price_ne_zero (pack_mem hp)
  unfold Confirmed Priced
  rw [and_comm, hmoney]
  refine and_congr_right fun _ => ?_
  cases hch : channel (msg.get "platform") with
  | none => simp
  | some ch =>
      cases ch with
      | win32 => simp
      | appstore =>
          have hreceipt : receiptOk (w.verifyReceipt (msg.get "receipt_data")) = true := by
            simp only [verified, hch, Bool.and_eq_true] at hver
            exact hver.1
          simp [hreceipt]
      | weixin =>
          simp only
          rw [← queryFits_iff hne]
          cases hquery : queryFits (w.orderquery (msg.get "receipt_data")) p.2 with
          | true => simp
          | false =>
              -- the payment was accepted because of the record
              have hfits : recordFits (orderRecord s msg) p.2 = true := by
                simpa [verified, orderRecord, hch, hmoney, hquery] using hver
              have hrecord := orderRecord_of_fits hfits
              rw [hrecord] at hfits
              simp [hrecord, hfits]

/-- A credited request is sound exactly if it goes none of the ways around the price. -/
theorem sound_iff_priced (h : Accepted w s msg) :
    Sound w price H s now msg ↔ Priced w price H s msg := by
  obtain ⟨herrno, hraise⟩ := raise_of_accepted now h
  obtain ⟨p, hp⟩ := Option.ne_none_iff_exists'.mp h.pack
  have hcredits : Credits w s now msg := ⟨herrno, by rw [hraise]; exact coins_pos hp⟩
  rw [← confirmed_iff h hp]
  constructor
  · intro hsound
    obtain ⟨q, hq, hexplains, hconfirmed⟩ := hsound hcredits
    rw [hraise] at hexplains
    by_cases htrue : msg.get "addCoin" = .bool true → bonus (recordOf s msg) = true
    · have hself := (explains_coins (r := recordOf s msg) hp).mpr htrue
      rw [explains_unique hq (pack_mem hp) hexplains hself] at hconfirmed
      exact ⟨hconfirmed, htrue⟩
    · -- the amount `true` raises the score by 1, which no pack explains
      exfalso
      rw [Classical.not_imp, Bool.not_eq_true] at htrue
      have hone : (coins (recordOf s msg) (msg.get "addCoin")).toNum = 1 := by
        have hpack : packCoin (msg.get "addCoin") = msg.get "addCoin" := by rw [packCoin, hp]; rfl
        rw [coins, htrue.2, hpack, htrue.1]
        rfl
      rw [hone] at hexplains
      unfold Explains at hexplains
      simp only [packs, List.mem_cons, List.not_mem_nil, or_false] at hq
      rcases hq with rfl | rfl | rfl | rfl | rfl | rfl <;> norm_num at hexplains
  · rintro ⟨hconfirmed, htrue⟩ -
    refine ⟨p, pack_mem hp, ?_, hconfirmed⟩
    rw [hraise]
    exact (explains_coins hp).mpr htrue

theorem price_injective {p q : ℚ × ℚ} (hp : p ∈ packs) (hq : q ∈ packs) (h : p.2 = q.2) :
    p = q := by
  simp only [packs, List.mem_cons, List.not_mem_nil, or_false] at hp hq
  rcases hp with rfl | rfl | rfl | rfl | rfl | rfl <;>
    rcases hq with rfl | rfl | rfl | rfl | rfl | rfl <;> first | rfl | (norm_num at h)

/-- The score that the request finds is a plain number. -/
def PlainScore (s : Store) (msg : JsonObject) : Prop := (recordOf s msg).Counts ["score"]

instance (s : Store) (msg : JsonObject) : Decidable (PlainScore s msg) :=
  inferInstanceAs (Decidable ((recordOf s msg).Counts _))

/-- **The pack that is credited was paid**, for every request in every state with a plain score, exactly
if the request is not accepted or goes none of the ways around the price.  Hence two requests for one
receipt, of a channel that confirms one amount for it, are credited for the same pack. -/
theorem credit_sound_iff (w : World) (price : Value → Option ℚ) (H : List Fields) (s : Store)
    (now : ℕ) (msg : JsonObject) (_ : PlainScore s msg) :
    (Sound w price H s now msg ↔ (Accepted w s msg → Priced w price H s msg)) ∧
    ∀ s' now' msg', PlainScore s' msg' → channel (msg'.get "platform") = channel (msg.get "platform") →
      msg'.get "receipt_data" = msg.get "receipt_data" →
      Credits w s now msg → Credits w s' now' msg' →
      Priced w price H s msg → Priced w price H s' msg' →
      (∀ a b, Confirmed w price H msg a → Confirmed w price H msg b → a = b) →
      pack (msg'.get "addCoin") = pack (msg.get "addCoin") := by
  constructor
  · constructor
    · exact fun hsound h => (sound_iff_priced h).mp hsound
    · exact fun hpriced hcredits =>
        (sound_iff_priced (accepted_of_credits hcredits)).mpr
          (hpriced (accepted_of_credits hcredits)) hcredits
  · intro s' now' msg' _ hch hreceipt hcredits hcredits' hpriced hpriced' hone
    have hacc := accepted_of_credits hcredits
    have hacc' := accepted_of_credits hcredits'
    obtain ⟨p, hp⟩ := Option.ne_none_iff_exists'.mp hacc.pack
    obtain ⟨p', hp'⟩ := Option.ne_none_iff_exists'.mp hacc'.pack
    have hconfirmed := ((confirmed_iff hacc hp).mpr hpriced).1
    have hconfirmed' : Confirmed w price H msg p'.2 := by
      have h' := ((confirmed_iff hacc' hp').mpr hpriced').1
      unfold Confirmed at h' ⊢
      rwa [hch, hreceipt] at h'
    rw [hp, hp', price_injective (pack_mem hp') (pack_mem hp) (hone _ _ hconfirmed' hconfirmed)]

end Whole

/-! ## A pack of 440 coins for the price of 30 -/

/-- A world in which Apple confirms every receipt, for the product of 600 fen, and WeChat every
order with 600 fen. -/
def shopWorld : World :=
  { World.plain with
    verifyReceipt := fun _ => ⟨.num 0, .str "com.ywxx.doudizhu8", .str "t1", .str "coin30"⟩
    orderquery := fun _ => ⟨some "SUCCESS", some "SUCCESS", some "600"⟩ }

/-- A user who has recharged before, so that there is no bonus. -/
def sampleStore : Store :=
  Store.empty.hset .user "u_a" (Fields.ofList
    [("unionid", .str "a"), ("userno", .num 100001), ("score", .num 36),
     ("rechargeVal", .num 600), ("todayRechargeVal", .num 600)]).jsonEncode

/-- The user asks for `addCoin` coins. -/
def sampleMsg (platform : String) (addCoin : ℚ) : JsonObject where
  fields := Fields.ofList
    [("unionid", .str "a"), ("platform", .str platform), ("addCoin", .num addCoin),
     ("receipt_data", .str "o1")]
  encodable := Fields.encodes_iff.mp rfl

/-- The receipt is for the product of 600 fen, and the client asks for 440 coins. -/
theorem product_not_compared :
    ¬ ∀ (w : World) (price : Value → Option ℚ) (H : List Fields) (s : Store) (now : ℕ)
      (msg : JsonObject), Sound w price H s now msg := by
  intro h
  have hacc : Accepted shopWorld sampleStore (sampleMsg "appstore" 440) :=
    ⟨by decide +kernel, Option.isSome_iff_ne_none.mp (by decide +kernel), by decide +kernel,
      Option.isSome_iff_ne_none.mp (by decide +kernel)⟩
  have hpriced : Priced shopWorld (fun _ => some 600) [] sampleStore (sampleMsg "appstore" 440) :=
    (sound_iff_priced hacc).mp (h _ _ _ _ 0 _)
  have hprice : some (600 : ℚ) = some (chargeMoney (.num 440)) := hpriced.2
  exact absurd hprice (by decide +kernel)

/-- A WeChat order of 600 fen, claimed for the pack of 30. -/
theorem query_confirms_price :
    Sound shopWorld (fun _ => none) [] sampleStore 0 (sampleMsg "android" 30) := by
  refine (credit_sound_iff shopWorld (fun _ => none) [] sampleStore 0 (sampleMsg "android" 30)
    (by decide +kernel)).1.mpr fun _ => ⟨by decide +kernel, ?_⟩
  intro _ hquery
  exact absurd hquery (by decide +kernel)

end PaymentAmount

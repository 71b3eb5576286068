/-
# What a refused request leaves behind

A handler that refuses a request has often written something already.  This file says exactly when two
kinds of refusals leave no trace.

* `addCoin.php` marks a payment as used while it verifies it, and only then looks for the user
  (`refused_recharge_iff`).
* `service_updateUser.php` and the command `cmd_addRedpack` of `service_gateWay.php` write the
  roll-over, the result of the game and the row of `op_getRedpack_record` before they look at the
  time of the last red packet (`refused_redpack_iff`).
-/
import DoudizhuBackend.AddCoin
import DoudizhuBackend.RequestEffects
import DoudizhuBackend.UserRequests

open Php GameData

namespace RefusedRequests

/-! ## Recharges -/

section Recharge

open AddCoin

/-- The verification of the payment takes it: the order is entered into the order set, or the fee that
is stored under the order number is cleared. -/
def Consumes (w : World) (s : Store) (msg : JsonObject) : Prop :=
  match channel (msg.get "platform") with
  | some .appstore =>
      let ret := w.verifyReceipt (msg.get "receipt_data")
      receiptOk ret = true ∧ storableKey ret.transaction_id.text ∧
        orderUsed (((s.hash .appstoreOrderidSet).lookup ret.transaction_id.text).getD .null) = false
  | some .weixin =>
      recordFits (((s.hash .wexinOutTradeNoSet).lookup (msg.get "receipt_data").text).elim .null
        fun fee => .num fee) (chargeMoney (msg.get "addCoin")) = true
  | _ => False

/-- The two records of payments are the same. -/
def SamePayments (s s' : Store) : Prop :=
  s'.hash .appstoreOrderidSet = s.hash .appstoreOrderidSet ∧
    s'.hash .wexinOutTradeNoSet = s.hash .wexinOutTradeNoSet

variable (w : World) (s : Store)

/-- The verification at Apple's: an order that is new is entered. -/
theorem verifyAppstore_run (receipt_data : Value) :
    (verifyAppstore receipt_data).run (exec w) s =
      let ret := w.verifyReceipt receipt_data
      if receiptOk ret = true ∧ orderUsed
          (((s.hash .appstoreOrderidSet).lookup ret.transaction_id.text).getD .null) = false then
        (true, s.hset .appstoreOrderidSet ret.transaction_id.text (.num 1))
      else (false, s) := by
  unfold verifyAppstore getAppstoreOrderId setAppstoreOrderId
  rw [Prog.run_bind]
  show Prog.run (exec w) (if receiptOk (w.verifyReceipt receipt_data) = true then _ else _) s = _
  dsimp only
  by_cases hok : receiptOk (w.verifyReceipt receipt_data) = true
  · rw [if_pos hok, Prog.run_bind]
    show Prog.run (exec w) (if orderUsed (((s.hash .appstoreOrderidSet).lookup
      (w.verifyReceipt receipt_data).transaction_id.text).getD .null) = true then _ else _) s = _
    by_cases hused : orderUsed (((s.hash .appstoreOrderidSet).lookup
        (w.verifyReceipt receipt_data).transaction_id.text).getD .null) = true
    · rw [if_pos hused, if_neg (by rw [hused]; simp)]
      rfl
    · rw [if_neg hused, if_pos ⟨hok, Bool.not_eq_true _ ▸ hused⟩]
      rfl
  · rw [if_neg hok, if_neg fun h => hok h.1]
    rfl

/-- The verification by WeChat's record or order query: a record that fits is cleared. -/
theorem verifyWeixin_run (receipt_data : Value) (money : ℚ) :
    (verifyWeixin receipt_data money).run (exec w) s =
      if recordFits (((s.hash .wexinOutTradeNoSet).lookup receipt_data.text).elim .null
          fun fee => .num fee) money = true then
        (true, s.hset .wexinOutTradeNoSet receipt_data.text 0)
      else (queryFits (w.orderquery receipt_data) money, s) := by
  unfold verifyWeixin getOutTradeNoRecord clearOutTradeNoRecord
  simp only [Prog.run_bind, Prog.run_call, exec, Prog.run_ite, Prog.pure_eq_ret, Prog.run_ret]

/-- A payment that is not taken is left as it was; a payment that is taken is not as before, and the
verification succeeds. -/
theorem verify_cases {ch : Channel} {msg : JsonObject} (hch : channel (msg.get "platform") = some ch) :
    let r := (verify ch (msg.get "receipt_data") (chargeMoney (msg.get "addCoin"))).run (exec w) s
    (¬ Consumes w s msg ∧ SamePayments s r.2) ∨
      (Consumes w s msg ∧ r.1 = true ∧ ¬ SamePayments s r.2) := by
  intro r
  cases ch with
  | appstore =>
      have hr : r = _ := verifyAppstore_run w s (msg.get "receipt_data")
      simp only [Consumes, hch]
      dsimp only at hr
      split at hr
      · rename_i h
        by_cases hkey : storableKey (w.verifyReceipt (msg.get "receipt_data")).transaction_id.text
        · refine Or.inr ⟨⟨h.1, hkey, h.2⟩, by rw [hr], ?_⟩
          rintro ⟨hsame, -⟩
          -- the entry is 1 now, so it would have counted as used before
          have hget := Store.lookup_hset_self (s := s) (h := .appstoreOrderidSet) (v := .num 1) hkey
          rw [hr] at hsame
          rw [hsame] at hget
          have hused := h.2
          rw [hget] at hused
          exact absurd hused (by decide)
        · refine Or.inl ⟨fun hc => hkey hc.2.1, ?_⟩
          rw [hr, Store.hset_of_not_storable hkey]
          exact ⟨rfl, rfl⟩
      · rename_i h
        refine Or.inl ⟨fun hc => h ⟨hc.1, hc.2.2⟩, ?_⟩
        rw [hr]
        exact ⟨rfl, rfl⟩
  | weixin =>
      have hr : r = _ := verifyWeixin_run w s (msg.get "receipt_data") (chargeMoney (msg.get "addCoin"))
      simp only [Consumes, hch]
      split at hr
      · rename_i h
        refine Or.inr ⟨h, by rw [hr], ?_⟩
        rintro ⟨-, hsame⟩
        -- a fee of 0 would not have fitted before
        cases hrec : (s.hash .wexinOutTradeNoSet).lookup (msg.get "receipt_data").text with
        | none =>
            rw [hrec] at h
            simp [recordFits, Value.looseLt] at h
        | some fee =>
            have hkey : storableKey (msg.get "receipt_data").text := by
              by_contra hkey
              rw [Store.lookup_of_not_storable hkey] at hrec
              cases hrec
            have hget := Store.lookup_hset_self (s := s) (h := .wexinOutTradeNoSet) (v := 0) hkey
            rw [hr] at hsame
            rw [hsame] at hget
            rw [hget] at h
            simp [recordFits] at h
      · rename_i h
        refine Or.inl ⟨h, ?_⟩
        rw [hr]
        exact ⟨rfl, rfl⟩
  | win32 =>
      refine Or.inl ⟨by simp only [Consumes, hch]; exact fun h => h, ?_⟩
      exact ⟨rfl, rfl⟩

/-- What follows the verification writes no record of a payment. -/
theorem settle_writes (now : ℕ) (msg : JsonObject) (isValid : Bool) :
    Handler.Writes (fun q => q ≠ .hash .appstoreOrderidSet ∧ q ≠ .hash .wexinOutTradeNoSet)
      (settle now msg isValid) := by
  have haux : ∀ q : StorePart, q.Aux → q ≠ .hash .appstoreOrderidSet ∧ q ≠ .hash .wexinOutTradeNoSet := by
    rintro q hq
    constructor <;> (rintro rfl; exact hq)
  have husers : ∀ q : StorePart, q.Users →
      q ≠ .hash .appstoreOrderidSet ∧ q ≠ .hash .wexinOutTradeNoSet := by
    rintro q (rfl | rfl | rfl) <;> decide
  unfold settle
  refine Handler.Writes.bind ((getUser_writes _).mono fun q hq => by rw [hq]; decide) fun user => ?_
  refine Handler.Writes.ite (Handler.Writes.ret _) (Handler.Writes.ite ?_ ?_)
  · unfold credit
    refine Handler.Writes.bind ((Handler.quiet_addRewardPool _).mono haux) fun _ => ?_
    refine Handler.Writes.bind ((insertAddScoreLogMysql_writes _).mono fun q hq => by
      rw [hq]; decide) fun _ => ?_
    refine Handler.Writes.bind ((updateUser_writes _).mono husers) fun _ => ?_
    refine Handler.Writes.bind ((Handler.quiet_addToCounter _ _).mono haux) fun _ => ?_
    refine Handler.Writes.bind ((Handler.quiet_sitePage _ _).mono haux) fun _ => ?_
    exact Handler.Writes.bind ((Handler.quiet_addRechargeRecordMysql _).mono haux) fun _ =>
      Handler.Writes.ret _
  · exact Handler.Writes.bind ((Handler.quiet_addRechargeRecordMysql _).mono haux) fun _ =>
      Handler.Writes.ret _

theorem settle_samePayments (now : ℕ) (msg : JsonObject) (isValid : Bool) :
    SamePayments s ((settle now msg isValid).run (exec w) s).2 :=
  ⟨(settle_writes now msg isValid).run_hash (by simp) s,
    (settle_writes now msg isValid).run_hash (by simp) s⟩

/-- The request is answered with 1000 exactly if the payment is valid and the user exists. -/
theorem settle_errno (now : ℕ) (msg : JsonObject) (isValid : Bool) :
    ((settle now msg isValid).run (exec w) s).1.errno? = some 1000 ↔
      isValid = true ∧ (s.record (userKey (msg.get "unionid"))).isSome = true := by
  have hfound := (getUser_found w s (msg.get "unionid")).isEmpty
  unfold settle
  rw [Prog.run_bind]
  cases hrec : s.record (userKey (msg.get "unionid")) with
  | none =>
      rw [hrec] at hfound
      rw [if_pos (show _ = true from hfound)]
      simp [sendErrno]
  | some o =>
      rw [hrec] at hfound
      rw [if_neg (by rw [hfound]; exact Bool.false_ne_true)]
      cases isValid with
      | false =>
          rw [if_neg Bool.false_ne_true, Prog.run_bind]
          simp [sendErrno]
      | true =>
          rw [if_pos rfl, credit]
          simp only [Prog.run_bind, Prog.pure_eq_ret, Prog.run_ret, Reply.errno?_send]
          simp

/-- **A refused recharge and its payment.**  A request that is not answered with 1000 leaves the
order set and the records of WeChat's order numbers as they were if and only if the verification takes
no payment or the user exists. -/
theorem refused_recharge_iff (now : ℕ) (msg : JsonObject) :
    let r := (addCoin now msg).run (exec w) s
    (r.1.errno? ≠ some 1000 → SamePayments s r.2) ↔
      (Consumes w s msg → (s.record (userKey (msg.get "unionid"))).isSome = true) := by
  intro r
  cases hch : channel (msg.get "platform") with
  | none =>
      -- an unknown platform is refused before anything is verified
      have hr : r = (.send 1003 ∅, s) := by
        show (addCoin now msg).run (exec w) s = _
        unfold addCoin
        rw [hch]
        rfl
      have hconsumes : ¬ Consumes w s msg := by
        simp only [Consumes, hch]
        exact fun h => h
      rw [hr]
      constructor
      · exact fun _ hc => absurd hc hconsumes
      · exact fun _ _ => ⟨rfl, rfl⟩
  | some ch =>
      have hcases := verify_cases w s hch
      -- the verification writes receipts, never the users, so the record is there as before
      have hrecord := Store.record_congr (k := userKey (msg.get "unionid"))
        ((UserStores.verify_writes ch (msg.get "receipt_data") (chargeMoney (msg.get "addCoin"))).run_hash
          (w := w) (h := .user) (by simp) s)
      have hr : r = (do
          let isValid ← verify ch (msg.get "receipt_data") (chargeMoney (msg.get "addCoin"))
          settle now msg isValid : Handler Reply).run (exec w) s := by
        show (addCoin now msg).run (exec w) s = _
        unfold addCoin
        rw [hch]
      rw [hr, Prog.run_bind]
      generalize (verify ch (msg.get "receipt_data")
        (chargeMoney (msg.get "addCoin"))).run (exec w) s = v at hcases hrecord
      have hsettle := settle_samePayments w v.2 now msg v.1
      have herrno := settle_errno w v.2 now msg v.1
      rw [hrecord] at herrno
      have hsame : SamePayments s ((settle now msg v.1).run (exec w) v.2).2 ↔ SamePayments s v.2 := by
        unfold SamePayments at *
        rw [hsettle.1, hsettle.2]
      rw [hsame, ne_eq, herrno]
      rcases hcases with ⟨hnot, hkept⟩ | ⟨hconsumes, hvalid, hchanged⟩
      · exact ⟨fun _ hc => absurd hc hnot, fun _ _ => hkept⟩
      · constructor
        · intro h _
          by_contra hnone
          exact hchanged (h fun hboth => hnone hboth.2)
        · intro h hrefused
          exact absurd ⟨hvalid, h hconsumes⟩ hrefused

/-- A world in which Apple confirms every receipt, as the order `t1`. -/
def receiptWorld : World :=
  { World.plain with
    verifyReceipt := fun _ => ⟨.num 0, .str "com.ywxx.doudizhu8", .str "t1", .str "coin_30"⟩ }

/-- A recharge of a user who is not there. -/
def sampleRecharge : JsonObject :=
  ⟨Fields.ofList [("unionid", .str "nobody"), ("platform", .str "appstore"), ("addCoin", .num 30),
      ("receipt_data", .str "r")],
    Fields.encodable_ofList (by simp [Fields.encodable])⟩

/-- **A refused recharge takes the payment.**  Nobody has the unionid of the request; it is answered
with 1003, and the order `t1` is entered as used. -/
theorem refused_recharge_consumes :
    let r := (addCoin 1600000000 sampleRecharge).run (exec receiptWorld) Store.empty
    r.1.errno? = some 1003 ∧
      (Store.empty.hash .appstoreOrderidSet).lookup "t1" = none ∧
      (r.2.hash .appstoreOrderidSet).lookup "t1" = some (.num 1) := by
  decide +kernel

end Recharge

/-! ## Red packets -/

section RedPacket

open GameServer

/-- The counters of red packets and of games. -/
def counterKeys : List String :=
  ["redpack_small_times", "redpack_big_times", "redpack_count", "redpack_small_count"]

/-- What concerns the user's red packets is the same. -/
structure NoTrace (u : Value) (s s' : Store) : Prop where
  record : s'.record (userKey u) = s.record (userKey u)
  roomResults : s'.queue ("roomresult_" ++ u.text) = s.queue ("roomresult_" ++ u.text)
  notices : ∀ name ∈ ["notice_queue_1", "notice_queue_2"], s'.queue name = s.queue name
  counters : ∀ key ∈ counterKeys, s'.kv.lookup key = s.kv.lookup key
  table : s'.table .opGetRedpackRecord = s.table .opGetRedpackRecord

/-- A result that is pushed onto a full queue of results, all of them the same, changes nothing. -/
def FullOf (item : Item) (q : List Item) : Prop := 10 ≤ q.length ∧ ∀ x ∈ q, x = item

/-- The request has nothing to write before the check: no roll-over is due, and there is no result of a
game to be stored. -/
def WritesNothingFirst (s : Store) (now : ℕ) (msg : UpdateMsg) : Prop :=
  let u := msg.userData.get "unionid"
  (storableKey (userKey u) → rolloverDue now (s.fieldsAt (userKey u)) = false) ∧
    (∀ r, msg.roomResult = some r → r.history ≠ [] →
      FullOf (.roomResult r (Calendar.dateTime now)) (s.queue ("roomresult_" ++ u.text))) ∧
    coinType msg.roomResult = .null

variable (w : World) (s : Store)

theorem cons_dropLast_eq {α : Type} (a : α) : ∀ q : List α, a :: q.dropLast = q ↔ q ≠ [] ∧ ∀ x ∈ q, x = a
  | [] => by simp
  | [x] => by simp [eq_comm]
  | x :: y :: q => by
      rw [List.dropLast_cons_cons, List.cons.injEq]
      constructor
      · rintro ⟨rfl, h⟩
        refine ⟨List.cons_ne_nil _ _, ?_⟩
        intro z hz
        rcases List.mem_cons.mp hz with rfl | hz
        · rfl
        · exact ((cons_dropLast_eq a (y :: q)).mp h).2 z hz
      · rintro ⟨-, h⟩
        have hx := h x List.mem_cons_self
        refine ⟨hx.symm, ?_⟩
        rw [hx]
        refine (cons_dropLast_eq a (y :: q)).mpr ⟨List.cons_ne_nil _ _, ?_⟩
        exact fun z hz => h z (List.mem_cons_of_mem _ hz)

theorem pushBounded_run (name : String) (bound : ℕ) (item : Item) :
    ((pushBounded name bound item).run (exec w) s).2.queue =
      Function.update s.queue name (item ::
        if bound ≤ (s.queue name).length then (s.queue name).dropLast else s.queue name) := by
  have hrun : (pushBounded name bound item).run (exec w) s =
      (do Handler.when (decide (bound ≤ (s.queue name).length)) (issue (.qpopBack name))
          issue (.qpushFront name item) : Handler Unit).run (exec w) s := rfl
  rw [hrun]
  by_cases hlen : bound ≤ (s.queue name).length
  · rw [if_pos hlen, decide_eq_true hlen]
    simp [Handler.when, exec, Store.setQueue]
  · rw [if_neg hlen, decide_eq_false hlen]
    rfl

/-- The queue of results after a result was pushed. -/
theorem pushBounded_same_iff (name : String) (item : Item) :
    ((pushBounded name 10 item).run (exec w) s).2.queue name = s.queue name ↔
      FullOf item (s.queue name) := by
  rw [pushBounded_run, Function.update_self]
  split
  · rename_i hlen
    rw [cons_dropLast_eq, FullOf]
    have hne : s.queue name ≠ [] := by
      intro hnil
      rw [hnil] at hlen
      exact absurd hlen (by decide)
    simp only [hne, hlen, ne_eq, not_false_eq_true, true_and]
  · rename_i hlen
    constructor
    · intro h
      have := congrArg List.length h
      simp at this
    · exact fun h => absurd h.1 hlen

theorem addToCounter_kv (key : String) (val : Value) :
    ((addToCounter key val).run (exec w) s).2.kv =
      s.kv.insert key (.num (val.toNum +
        if ((s.kv.lookup key).getD .null).toBool then ((s.kv.lookup key).getD .null).toNum else 0)) :=
  rfl

/-- A counter that is raised by one is not as before. -/
theorem addToCounter_changes (key : String) :
    ((addToCounter key (.num 1)).run (exec w) s).2.kv.lookup key ≠ s.kv.lookup key := by
  intro h
  rw [addToCounter_kv, AList.lookup_insert] at h
  cases hold : s.kv.lookup key with
  | none =>
      rw [hold] at h
      cases h
  | some old =>
      rw [hold] at h
      have hold : old = .num (1 + if old.toBool then old.toNum else 0) := (Option.some.inj h).symm
      cases old with
      | num q =>
          have hq := Value.num.inj hold
          by_cases hzero : q = 0
          · subst hzero
            simp [Value.toBool] at hq
          · simp [Value.toBool, hzero] at hq
      | _ => cases hold

/-- The part of `recordRoomResult` that stores the result. -/
def storeResult (now : ℕ) (u : Value) (roomResult : Option RoomResult) : Handler Unit :=
  Handler.when (!(roomResult.elim [] RoomResult.history).isEmpty) do
    Helper.rewardIntroducer2 u
    roomResult.elim (pure ()) (insertRoomResult now u)

/-- The part of `recordRoomResult` that counts the game. -/
def countGame (roomResult : Option RoomResult) : Handler Unit :=
  Handler.when (coinType roomResult ≠ .null)
    (if Value.looseEq (coinType roomResult) (.num 1) then addBigRedPackPlayTimes
     else addSmallRedPackPlayTimes)

theorem recordRoomResult_run (now : ℕ) (u : Value) (roomResult : Option RoomResult) :
    ((recordRoomResult now u roomResult).run (exec w) s).2 =
      ((countGame roomResult).run (exec w) ((storeResult now u roomResult).run (exec w) s).2).2 := by
  unfold recordRoomResult
  rw [Prog.run_bind]
  rfl

theorem storeResult_run (now : ℕ) (u : Value) (roomResult : Option RoomResult) :
    (∃ r, roomResult = some r ∧ r.history ≠ [] ∧ (storeResult now u roomResult).run (exec w) s =
        (insertRoomResult now u r).run (exec w) s) ∨
      ((∀ r, roomResult = some r → r.history = []) ∧
        (storeResult now u roomResult).run (exec w) s = ((), s)) := by
  cases roomResult with
  | none => exact Or.inr ⟨fun r hr => (by cases hr), rfl⟩
  | some r =>
      obtain ⟨history, type⟩ := r
      cases history with
      | nil =>
          refine Or.inr ⟨?_, rfl⟩
          intro r hr
          rw [← Option.some.inj hr]
      | cons line history => exact Or.inl ⟨_, rfl, List.cons_ne_nil _ _, rfl⟩

theorem storeResult_writes (now : ℕ) (u : Value) (roomResult : Option RoomResult) :
    Handler.Writes (· = .queues) (storeResult now u roomResult) := by
  refine Handler.Writes.when (Handler.Writes.bind (Handler.Writes.issue (by simp [Cmd.part])) fun _ => ?_)
  cases roomResult with
  | none => exact Handler.Writes.ret ()
  | some r =>
      refine Handler.Writes.bind (Handler.Writes.issue (by simp [Cmd.part])) fun _ => ?_
      refine Handler.Writes.bind (Handler.Writes.when (Handler.Writes.issue (by simp [Cmd.part])))
        fun _ => ?_
      exact Handler.Writes.issue (by simp [Cmd.part])

theorem countGame_writes (roomResult : Option RoomResult) :
    Handler.Writes (· = .kv) (countGame roomResult) := by
  have hcounter : ∀ key val, Handler.Writes (· = .kv) (addToCounter key val) := fun key val =>
    Handler.Writes.bind (Handler.Writes.issue (by simp [Cmd.part])) fun _ =>
      Handler.Writes.issue (by simp [Cmd.part])
  exact Handler.Writes.when (Handler.Writes.ite (hcounter _ _) (hcounter _ _))

theorem recordRoomResult_queue_eq (now : ℕ) (u : Value) (roomResult : Option RoomResult) :
    ((recordRoomResult now u roomResult).run (exec w) s).2.queue =
      ((storeResult now u roomResult).run (exec w) s).2.queue := by
  rw [recordRoomResult_run, (countGame_writes roomResult).run_queue (by simp)]

/-- What is stored about the result of a game leaves the queue of results as it was exactly if there is
no result, or the queue is full of it. -/
theorem recordRoomResult_queue (now : ℕ) (u : Value) (roomResult : Option RoomResult) :
    ((recordRoomResult now u roomResult).run (exec w) s).2.queue ("roomresult_" ++ u.text) =
        s.queue ("roomresult_" ++ u.text) ↔
      ∀ r, roomResult = some r → r.history ≠ [] →
        FullOf (.roomResult r (Calendar.dateTime now)) (s.queue ("roomresult_" ++ u.text)) := by
  rw [recordRoomResult_queue_eq]
  rcases storeResult_run w s now u roomResult with ⟨r, rfl, hhistory, hrun⟩ | ⟨hnone, hrun⟩
  · rw [hrun, insertRoomResult, pushBounded_same_iff]
    constructor
    · intro h r' hr' _
      rw [← Option.some.inj hr']
      exact h
    · exact fun h => h r rfl hhistory
  · rw [hrun]
    constructor
    · exact fun _ r hr hhistory => absurd (hnone r hr) hhistory
    · exact fun _ => rfl

/-- The other queues are not concerned. -/
theorem recordRoomResult_queue_of_ne (now : ℕ) (u : Value) (roomResult : Option RoomResult)
    {name : String} (hname : name ≠ "roomresult_" ++ u.text) :
    ((recordRoomResult now u roomResult).run (exec w) s).2.queue name = s.queue name := by
  rw [recordRoomResult_queue_eq]
  rcases storeResult_run w s now u roomResult with ⟨r, rfl, hhistory, hrun⟩ | ⟨-, hrun⟩
  · rw [hrun, insertRoomResult, pushBounded_run, Function.update_of_ne hname]
  · rw [hrun]

/-- The counters are as before exactly if the result has no type of coin. -/
theorem recordRoomResult_counters (now : ℕ) (u : Value) (roomResult : Option RoomResult) :
    (∀ key ∈ counterKeys, ((recordRoomResult now u roomResult).run (exec w) s).2.kv.lookup key =
        s.kv.lookup key) ↔ coinType roomResult = .null := by
  have hkv : ((storeResult now u roomResult).run (exec w) s).2.kv = s.kv :=
    (storeResult_writes now u roomResult).run_kv (by simp) s
  rw [recordRoomResult_run, ← hkv]
  generalize ((storeResult now u roomResult).run (exec w) s).2 = s'
  by_cases hnull : coinType roomResult = .null
  · have hcount : countGame roomResult = pure () := by
      unfold countGame
      rw [hnull]
      rfl
    rw [hcount]
    exact ⟨fun _ => hnull, fun _ key _ => rfl⟩
  · refine ⟨fun h => ?_, fun h => absurd h hnull⟩
    exfalso
    have hcount : countGame roomResult = if Value.looseEq (coinType roomResult) (.num 1) then
        addBigRedPackPlayTimes else addSmallRedPackPlayTimes := by
      unfold countGame Handler.when
      rw [if_pos (by simpa using hnull)]
    rw [hcount] at h
    split at h
    · exact addToCounter_changes w s' "redpack_big_times" (h _ (by decide))
    · exact addToCounter_changes w s' "redpack_small_times" (h _ (by decide))

theorem clearYesterdayData_writes (now : ℕ) (u : Value) (user : Fields) :
    Handler.Writes StorePart.Users (clearYesterdayData now u user) :=
  Handler.Writes.ite (Handler.Writes.bind (updateUser_writes _) fun _ => Handler.Writes.ret _)
    (Handler.Writes.ret _)

/-- The roll-over block leaves the record as it was exactly if no roll-over is due, or the user cannot
have a record. -/
theorem clearYesterdayData_record (now : ℕ) {u : Value} (hnull : u ≠ .null)
    (henc : Fields.encodable u = true) {user : Fields}
    (hcopy : user.get "lastLoginTime" = (s.fieldsAt (userKey u)).get "lastLoginTime") :
    ((clearYesterdayData now u user).run (exec w) s).2.record (userKey u) = s.record (userKey u) ↔
      (storableKey (userKey u) → rolloverDue now (s.fieldsAt (userKey u)) = false) := by
  have hdue : rolloverDue now user = rolloverDue now (s.fieldsAt (userKey u)) := by
    unfold rolloverDue
    rw [hcopy]
  by_cases hst : storableKey (userKey u)
  · cases hd : rolloverDue now (s.fieldsAt (userKey u)) with
    | false =>
        unfold clearYesterdayData
        rw [hdue, hd, if_neg Bool.false_ne_true]
        exact ⟨fun _ _ => rfl, fun _ => rfl⟩
    | true =>
        refine ⟨fun h => ?_, fun h => by cases h hst⟩
        exfalso
        -- the date that the roll-over writes would have been there before
        have hunionid : (rolloverData now u user).get "unionid" = u := rolloverData_unionid
        have hget := @updateUser_get w s (rolloverData now u user) _
          (by rw [Fields.isset_eq_true, hunionid]; exact hnull) (by rw [hunionid]) hst
          (rolloverData_encodable now user henc) "lastLoginTime" (by decide)
        have hdate : (rolloverData now u user).get "lastLoginTime" = .str (Calendar.date now) := by
          simp [rolloverData, Fields.get_ofList_cons]
        rw [if_pos (by simp [rolloverData, Fields.mem_ofList]), hdate] at hget
        have hrun : ((clearYesterdayData now u user).run (exec w) s).2 =
            ((updateUser (rolloverData now u user)).run (exec w) s).2 := by
          unfold clearYesterdayData
          rw [hdue, hd, if_pos rfl, Prog.run_bind]
          rfl
        rw [← hrun, Store.fieldsAt_congr h] at hget
        rw [rolloverDue, hget, Value.looseEq_str_self] at hd
        cases hd
  · rw [Store.record_of_not_storable hst, Store.record_of_not_storable hst]
    exact ⟨fun _ h => absurd h hst, fun _ => rfl⟩

theorem queueName_ne (name : String) (u : Value) (h : name.toList.head? ≠ some 'r') :
    name ≠ "roomresult_" ++ u.text := by
  rintro rfl
  apply h
  rw [String.toList_append]
  rfl

/-- `getUser` calls `rand` for a record without a number. -/
def drawsNumber (s : Store) (u : Value) : Bool :=
  (s.record (userKey u)).any fun o => !o.isset "userno"

theorem getUser_tick (u : Value) :
    ((getUser u).run (exec w) s).2.tick = if drawsNumber s u then s.tick + 1 else s.tick := by
  unfold getUser drawsNumber Store.record
  simp only [Prog.run_bind, Prog.run_call, exec]
  cases ((s.hash .user).lookup (userKey u)).join with
  | none => rfl
  | some o =>
      by_cases hset : o.isset "userno" = true
      · rw [if_neg (by simp [hset])]
        show (Prog.run (exec w) (if o.isset "userno" then _ else _) s).2.tick = _
        rw [if_pos hset]
        rfl
      · rw [if_pos (by simp [hset])]
        show (Prog.run (exec w) (if o.isset "userno" then _ else _) s).2.tick = _
        rw [if_neg hset]
        simp only [Prog.run_bind, Prog.run_call, exec, Store.hset]
        split <;> rfl

theorem clearYesterdayData_result (now : ℕ) (u : Value) (user : Fields) :
    ((clearYesterdayData now u user).run (exec w) s).1.get "getRedPackTime" =
      user.get "getRedPackTime" := by
  unfold clearYesterdayData
  split
  · rw [Prog.run_bind]
    show (rolledOver user).get "getRedPackTime" = _
    simp [rolledOver, Fields.get_set]
  · rfl

/-- A refused `service_updateUser.php` request has stored the roll-over and the result of the game. -/
theorem serviceUpdateUser_refused (now : ℕ) {msg : UpdateMsg}
    (htrue : (msg.userData.get "unionid").toBool = true)
    (herrno : ((serviceUpdateUser now msg).run (exec w) s).1.errno? = some 1001) :
    ((serviceUpdateUser now msg).run (exec w) s).2 =
      ((recordRoomResult now (msg.userData.get "unionid") msg.roomResult).run (exec w)
        ((clearYesterdayData now (msg.userData.get "unionid")
            ((getUser (msg.userData.get "unionid")).run (exec w) s).1).run (exec w)
          ((getUser (msg.userData.get "unionid")).run (exec w) s).2).2).2 := by
  rw [serviceUpdateUser_reply htrue] at herrno
  have hrefused : refused now msg (s.fieldsAt (userKey (msg.userData.get "unionid"))) = true := by
    by_contra hnot
    rw [if_neg hnot] at herrno
    cases herrno
  rw [refused, Bool.and_eq_true, Bool.not_eq_true'] at hrefused
  have htime : ((clearYesterdayData now (msg.userData.get "unionid")
      ((getUser (msg.userData.get "unionid")).run (exec w) s).1).run (exec w)
        ((getUser (msg.userData.get "unionid")).run (exec w) s).2).1.get "getRedPackTime" =
      (s.fieldsAt (userKey (msg.userData.get "unionid"))).get "getRedPackTime" := by
    rw [clearYesterdayData_result, (getUser_found w s _).get _ (by decide)]
    rfl
  unfold serviceUpdateUser
  rw [if_pos htrue]
  simp only [Prog.run_bind]
  rw [rewardIntroducer_run]
  unfold update
  rw [Prog.run_bind, if_pos hrefused.1]
  have hcool : coolDownOver now ((clearYesterdayData now (msg.userData.get "unionid")
      ((getUser (msg.userData.get "unionid")).run (exec w) s).1).run (exec w)
        ((getUser (msg.userData.get "unionid")).run (exec w) s).2).1 = false := by
    rw [← hrefused.2]
    unfold coolDownOver
    rw [htime]
  rw [hcool, if_neg Bool.false_ne_true]
  rfl

theorem addRedpackRecordMysql_writes (row : Fields) :
    Handler.Writes (· = .table .opGetRedpackRecord) (addRedpackRecordMysql row) :=
  Handler.Writes.issue (by simp [Cmd.part])

theorem addRedpackRecordMysql_table (row : Fields) :
    ((addRedpackRecordMysql row).run (exec w) s).2.table .opGetRedpackRecord =
      if w.mysqlOk s.tick then s.table .opGetRedpackRecord ++ [row]
      else s.table .opGetRedpackRecord := by
  show (if w.mysqlOk s.tick then (s.insertRow .opGetRedpackRecord row).nextTick
    else s.nextTick).table .opGetRedpackRecord = _
  split
  · simp [Store.insertRow, Store.nextTick]
  · rfl

/-- A refused `cmd_addRedpack` request has written its row. -/
theorem serviceGateWay_refused (now : ℕ) {msg : GatewayMsg}
    (htrue : (msg.fields.get "unionid").toBool = true) (hcmd : isCmd msg "cmd_addRedpack" = true)
    (herrno : ((serviceGateWay now msg).run (exec w) s).1.errno? = some 1001) :
    ((serviceGateWay now msg).run (exec w) s).2 =
      ((addRedpackRecordMysql (redpackRecord now
          ((getUser (msg.fields.get "unionid")).run (exec w) s).1 (msg.fields.get "coinVal")
          (msg.fields.get "cashVal") (msg.fields.get "playTurn"))).run (exec w)
        ((getUser (msg.fields.get "unionid")).run (exec w) s).2).2 := by
  unfold serviceGateWay at *
  rw [if_pos htrue, Prog.run_bind, if_pos hcmd] at *
  unfold addRedpack at *
  rw [Prog.run_bind] at *
  split at herrno
  · simp only [Prog.run_bind] at herrno
    cases herrno
  · rename_i hcool
    rw [if_neg hcool]
    rfl

/-- **A refused red packet and its traces.**  A request of either kind that is answered with 1001
because the time since the last red packet is too short leaves no trace if and only if
`service_updateUser.php` has nothing to write before the check, and MySQL refuses the row that
`cmd_addRedpack` always writes before it. -/
theorem refused_redpack_iff (now : ℕ) :
    (∀ msg : UpdateMsg, (msg.userData.get "unionid").toBool = true →
      let r := (serviceUpdateUser now msg).run (exec w) s
      r.1.errno? = some 1001 →
        (NoTrace (msg.userData.get "unionid") s r.2 ↔ WritesNothingFirst s now msg)) ∧
    ∀ msg : GatewayMsg, (msg.fields.get "unionid").toBool = true →
      isCmd msg "cmd_addRedpack" = true →
      let r := (serviceGateWay now msg).run (exec w) s
      r.1.errno? = some 1001 →
        (NoTrace (msg.fields.get "unionid") s r.2 ↔
          w.mysqlOk (if drawsNumber s (msg.fields.get "unionid") then s.tick + 1 else s.tick) =
            false) := by
  constructor
  · intro msg htrue r herrno
    have hr : r.2 = _ := serviceUpdateUser_refused w s now htrue herrno
    -- the four stages of the request: the copy, the roll-over, the room result
    set u := msg.userData.get "unionid" with hu
    set s₁ := ((getUser u).run (exec w) s).2 with hs₁
    set user := ((getUser u).run (exec w) s).1 with huser
    set s₂ := ((clearYesterdayData now u user).run (exec w) s₁).2 with hs₂
    have hrecord₁ : ∀ k, s₁.record k = s.record k := fun k => getUser_record w s u k
    have hfields : s₁.fieldsAt (userKey u) = s.fieldsAt (userKey u) :=
      Store.fieldsAt_congr (hrecord₁ _)
    have hqueue : s₂.queue = s.queue :=
      ((clearYesterdayData_writes now u user).run_queue (by simp [StorePart.Users]) s₁).trans
        ((getUser_writes u).run_queue (by simp) s)
    have hkv : s₂.kv = s.kv :=
      ((clearYesterdayData_writes now u user).run_kv (by simp [StorePart.Users]) s₁).trans
        ((getUser_writes u).run_kv (by simp) s)
    have hnull : u ≠ .null := by
      intro h
      rw [h] at htrue
      cases htrue
    -- only the roll-over writes the record
    have hrec : r.2.record (userKey u) = s.record (userKey u) ↔
        (storableKey (userKey u) → rolloverDue now (s.fieldsAt (userKey u)) = false) := by
      rw [hr, (Handler.quiet_recordRoomResult now u msg.roomResult).record, ← hrecord₁, hs₂,
        clearYesterdayData_record w s₁ now hnull (msg.userData.encodable_get "unionid"), hfields]
      rw [huser, (getUser_found w s u).get _ (by decide), hfields]
      rfl
    have hresults := recordRoomResult_queue w s₂ now u msg.roomResult
    have hcounters := recordRoomResult_counters w s₂ now u msg.roomResult
    rw [hqueue, ← hr] at hresults
    rw [hkv, ← hr] at hcounters
    constructor
    · exact fun h => ⟨hrec.mp h.record, hresults.mp h.roomResults, hcounters.mp h.counters⟩
    · rintro ⟨hroll, hresult, hcoin⟩
      refine ⟨hrec.mpr hroll, hresults.mpr hresult, ?_, hcounters.mpr hcoin, ?_⟩
      · -- the other queues and the tables are never written
        intro name hname
        have hne : name ≠ "roomresult_" ++ u.text := by
          apply queueName_ne
          revert name
          decide
        rw [hr, recordRoomResult_queue_of_ne w s₂ now u msg.roomResult hne, hqueue]
      · rw [hr, recordRoomResult_run]
        rw [(countGame_writes msg.roomResult).run_table (by simp),
          (storeResult_writes now u msg.roomResult).run_table (by simp), hs₂,
          (clearYesterdayData_writes now u user).run_table (by simp [StorePart.Users]), hs₁,
          (getUser_writes u).run_table (by simp)]
  · intro msg htrue hcmd r herrno
    have hr := serviceGateWay_refused w s now htrue hcmd herrno
    set u := msg.fields.get "unionid" with hu
    set s₁ := ((getUser u).run (exec w) s).2 with hs₁
    have hqueue : r.2.queue = s.queue := by
      rw [hr, (addRedpackRecordMysql_writes _).run_queue (by simp), hs₁,
        (getUser_writes u).run_queue (by simp)]
    have hkv : r.2.kv = s.kv := by
      rw [hr, (addRedpackRecordMysql_writes _).run_kv (by simp), hs₁,
        (getUser_writes u).run_kv (by simp)]
    have hrecord : r.2.record (userKey u) = s.record (userKey u) := by
      rw [hr, (Handler.quiet_addRedpackRecordMysql _).record, hs₁, getUser_record]
    -- the row of the red packet is inserted unless MySQL refuses
    have htable := addRedpackRecordMysql_table w s₁ (redpackRecord now
      ((getUser u).run (exec w) s).1 (msg.fields.get "coinVal") (msg.fields.get "cashVal")
      (msg.fields.get "playTurn"))
    rw [← hr, hs₁, getUser_table, getUser_tick] at htable
    constructor
    · intro h
      by_contra hok
      rw [Bool.not_eq_false] at hok
      have hlen := congrArg List.length (h.table.symm.trans htable)
      rw [if_pos hok] at hlen
      simp at hlen
    · intro hno
      rw [if_neg (by rw [hno]; exact Bool.false_ne_true)] at htable
      exact ⟨hrecord, by rw [hqueue], fun name _ => by rw [hqueue], fun key _ => by rw [hkv], htable⟩

/-- A user who came yesterday and got a red packet a minute ago. -/
def sampleUser : Fields :=
  Fields.ofList [("unionid", .str "a"), ("userno", .num 100001), ("getRedPackTime", .num 1600086340),
    ("lastLoginTime", .str (Calendar.date 1600000000)), ("redPackVal", .num 0)]

/-- The user is the only one. -/
def sampleStore : Store := Store.empty.hset .user "u_a" sampleUser.jsonEncode

/-- The game server reports another red packet. -/
def sampleRedPack : UpdateMsg :=
  ⟨⟨Fields.ofList [("unionid", .str "a"), ("redPackVal", .num 50)],
      Fields.encodable_ofList (by simp [Fields.encodable])⟩, none⟩

/-- **A refused red packet leaves a trace.**  On the next day the request is refused, and the record
has the new date. -/
theorem refused_redpack_traces :
    let r := (serviceUpdateUser 1600086400 sampleRedPack).run (exec World.plain) sampleStore
    r.1.errno? = some 1001 ∧
      (sampleStore.fieldsAt "u_a").get "lastLoginTime" = .str (Calendar.date 1600000000) ∧
      (r.2.fieldsAt "u_a").get "lastLoginTime" = .str (Calendar.date 1600086400) := by
  decide +kernel

/-- On the same day it leaves none. -/
theorem refused_redpack_iff_sample :
    NoTrace (.str "a") sampleStore
      ((serviceUpdateUser 1600000400 sampleRedPack).run (exec World.plain) sampleStore).2 := by
  apply ((refused_redpack_iff World.plain sampleStore 1600000400).1 sampleRedPack (by decide +kernel)
    (by decide +kernel)).mpr
  refine ⟨fun _ => by decide +kernel, ?_, rfl⟩
  intro r hr
  cases hr

end RedPacket

end RefusedRequests

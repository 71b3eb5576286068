/-
# No payment is credited twice

Any number of `addCoin.php` requests and `weixinPayNotify.php` notifications run against each
other, in any interleaving of their single commands.  The answers of Apple and of WeChat are
functions of the receipt and of the order number (`World`).

Each way of verifying a payment leaves a mark by which a second request can see that the
payment is used up: the App Store order is entered into `appstore_orderid_set`, the record of
the WeChat order is set to `0`.  Not so if WeChat's order query has confirmed the payment: the
same order can be claimed again (`payment_credited_twice`).

`Recorded` lists what else has to go right: nobody else sets the mark between the test and the
write, SSDB accepts the order number as a key, and no notification overwrites the mark.  In
every run in which this holds at every step, each payment is credited at most once
(`payment_credited_once`).  The fields of a message are scalars, as everywhere (`Php.Value`): a `receipt_data`
that is an array would be merged into the command that clears the record.
-/
import DoudizhuBackend.CommandPool
import DoudizhuBackend.UserRecords

open Php GameData AddCoin WeixinPay

namespace PaymentOnce

/-! ## Requests and payments -/

/-- A request of one of the two kinds. -/
inductive Job where
  | addCoin (now : ℕ) (msg : JsonObject)
  | notify (rowdata : Option Fields)

/-- What the server runs for the request. -/
def Job.handler : Job → Handler Reply
  | .addCoin now msg => AddCoin.addCoin now msg
  | .notify rowdata => weixinPayNotify rowdata

/-- A payment: an App Store transaction or a WeChat order. -/
inductive Payment where
  | apple (transaction_id : String)
  | weixin (out_trade_no : String)
  deriving DecidableEq

/-- The payment a request claims. -/
def payment (w : World) (msg : JsonObject) : Option Payment :=
  match channel (msg.get "platform") with
  | some .appstore =>
      some (.apple (w.verifyReceipt (msg.get "receipt_data")).transaction_id.text)
  | some .weixin => some (.weixin (msg.get "receipt_data").text)
  | _ => none

/-- The payment is marked as used up. -/
def Marked (s : Store) : Payment → Prop
  | .apple t => orderUsed (((s.hash .appstoreOrderidSet).lookup t).getD .null) = true
  | .weixin n => (s.hash .wexinOutTradeNoSet).lookup n = some 0

instance (s : Store) (p : Payment) : Decidable (Marked s p) :=
  match p with
  | .apple _ => inferInstanceAs (Decidable (_ = true))
  | .weixin _ => inferInstanceAs (Decidable (_ = _))

/-- The command that sets the mark. -/
def markCmd : Payment → Cmd
  | .apple t => .hset .appstoreOrderidSet t (.num 1)
  | .weixin n => .hset .wexinOutTradeNoSet n 0

/-- The request has ended by adding coins to a score for the payment `p`. -/
def Credited {ι : Type} (w : World) (job : ι → Job) (cfg : Pool ι Cmd Cmd.Resp Reply Store)
    (p : Payment) (i : ι) : Prop :=
  ∃ now msg, job i = .addCoin now msg ∧ payment w msg = some p ∧
    (pack (msg.get "addCoin")).isSome = true ∧
    (cfg.thread i).result.bind Reply.errno? = some 1000

/-- What has to hold when request `i` issues its next command: the mark it sets is not set yet
(and SSDB accepts the transaction number as a key); the order query does not confirm the
payment; a notification does not overwrite a mark. -/
def Recorded {ι : Type} (w : World) (job : ι → Job) (cfg : Pool ι Cmd Cmd.Resp Reply Store)
    (i : ι) : Prop :=
  match job i, (cfg.thread i).pending with
  | .addCoin _ _, some (.hset .appstoreOrderidSet t _) =>
      storableKey t ∧ ¬ Marked cfg.store (.apple t)
  | .addCoin _ _, some (.hset .wexinOutTradeNoSet n _) => ¬ Marked cfg.store (.weixin n)
  | .addCoin _ msg, some (.orderquery x) => (pack (msg.get "addCoin")).isSome = true →
      queryFits (w.orderquery x) (chargeMoney (msg.get "addCoin")) = false
  | .notify _, some (.hset .wexinOutTradeNoSet n fee) => Marked cfg.store (.weixin n) → fee = 0
  | _, _ => True

instance {ι : Type} (w : World) (job : ι → Job) (cfg : Pool ι Cmd Cmd.Resp Reply Store) (i : ι) :
    Decidable (Recorded w job cfg i) := by
  unfold Recorded
  split <;> infer_instance

/-! ## One request -/

/-- The command does not write a payment record. -/
def Plain (c : Cmd) : Prop :=
  c.part ≠ some (.hash .appstoreOrderidSet) ∧ c.part ≠ some (.hash .wexinOutTradeNoSet)

theorem Plain.of_writes {Q : StorePart → Prop} {α : Type} {p : Handler α} (h : Handler.Writes Q p)
    (hQ : ¬ Q (.hash .appstoreOrderidSet) ∧ ¬ Q (.hash .wexinOutTradeNoSet)) :
    p.All Plain fun _ => True :=
  Prog.All.mono h (fun _ hc => ⟨fun hpart => hQ.1 (hc _ hpart), fun hpart => hQ.2 (hc _ hpart)⟩)
    fun _ hr => hr

/-- A request of `addCoin.php` marks its payment, or does not credit it. -/
def claimOutline (w : World) (msg : JsonObject) : Outline Cmd Cmd.Resp Reply where
  ok
    | .verifyReceipt x, r => r = w.verifyReceipt x
    | .orderquery _, r => (pack (msg.get "addCoin")).isSome = true →
        queryFits r (chargeMoney (msg.get "addCoin")) = false
    | .hget .wexinOutTradeNoSet k, r => r ≠ none → storableKey k
    | _, _ => True
  quiet := Plain
  mark := fun c => ∃ p, payment w msg = some p ∧ c = markCmd p ∧ ∀ n, p = .weixin n → storableKey n
  after := Plain
  refused := fun r =>
    payment w msg ≠ none → (pack (msg.get "addCoin")).isSome = true → r.errno? ≠ some 1000
  done := fun _ => True

/-- A notification writes the record of an order at most once. -/
def notifyOutline : Outline Cmd Cmd.Resp Reply where
  ok := fun _ _ => True
  quiet := Plain
  mark := fun c => ∃ n fee, c = .hset .wexinOutTradeNoSet n fee
  after := Plain
  refused := fun _ => True
  done := fun _ => True

/-- The outline of each kind of request. -/
def outline (w : World) : Job → Outline Cmd Cmd.Resp Reply
  | .addCoin _ msg => claimOutline w msg
  | .notify _ => notifyOutline

section Request

variable {w : World} {now : ℕ} {msg : JsonObject}

theorem plain_credit (user : Fields) : (credit now msg user).All Plain fun _ => True := by
  have hquiet : ∀ {α : Type} {p : Handler α}, Handler.Quiet p → p.All Plain fun _ => True :=
    fun h => Plain.of_writes h (by simp [StorePart.Aux])
  refine (hquiet (Handler.quiet_addRewardPool _)).bind fun _ _ => ?_
  refine (Plain.of_writes (Q := (· = .table .opScoreLog)) (Handler.Writes.issue (by simp [Cmd.part]))
    (by simp)).bind fun _ _ => ?_
  refine (Plain.of_writes (updateUser_writes _) (by simp [StorePart.Users])).bind fun _ _ => ?_
  refine (hquiet (Handler.quiet_addToCounter _ _)).bind fun _ _ => ?_
  refine (hquiet (Handler.quiet_sitePage _ _)).bind fun _ _ => ?_
  exact (hquiet (Handler.quiet_addRechargeRecordMysql _)).bind fun _ _ => trivial

theorem plain_getUser (u : Value) : (getUser u).All Plain fun _ => True :=
  Plain.of_writes (getUser_writes u) (by simp)

/-- After the check of the payment no payment record is written. -/
theorem plain_settle (b : Bool) : (settle now msg b).All Plain fun _ => True := by
  refine (plain_getUser _).bind fun user _ => ?_
  refine Prog.All.ite (fun _ => trivial) fun _ => ?_
  refine Prog.All.ite (fun _ => plain_credit user) fun _ => ?_
  exact (Plain.of_writes (Handler.quiet_addRechargeRecordMysql _)
    (by simp [StorePart.Aux])).bind fun _ _ => trivial

/-- A request whose payment was not accepted is not credited. -/
theorem plain_settle_false :
    (settle now msg false).All Plain fun r => r.errno? ≠ some 1000 := by
  refine (plain_getUser _).bind fun user _ => ?_
  refine Prog.All.ite (fun _ => by simp [sendErrno]) fun _ => ?_
  rw [if_neg (by decide)]
  exact (Plain.of_writes (Handler.quiet_addRechargeRecordMysql _)
    (by simp [StorePart.Aux])).bind fun _ _ => by simp [sendErrno]

/-- A program without payment records that ends with results allowed without the mark. -/
theorem before_of_all {p : Handler Reply} {o : Outline Cmd Cmd.Resp Reply}
    (h : p.All o.quiet o.refused) : o.Before p := by
  induction p with
  | ret r => exact h
  | op c k ih => exact Or.inr ⟨h.1, fun r _ => ih r (h.2 r)⟩

theorem before_settle_false : (claimOutline w msg).Before (settle now msg false) :=
  before_of_all (plain_settle_false.mono (fun _ h => h) fun _ h _ _ => h)

theorem before_appstore (hch : channel (msg.get "platform") = some .appstore) :
    (claimOutline w msg).Before
      (verifyAppstore (msg.get "receipt_data") >>= fun b => settle now msg b) := by
  have hpay : payment w msg =
      some (.apple (w.verifyReceipt (msg.get "receipt_data")).transaction_id.text) := by
    simp [payment, hch]
  unfold verifyAppstore getAppstoreOrderId setAppstoreOrderId
  simp only [Prog.call_bind, Prog.op_bind, Prog.pure_eq_ret, Prog.ret_bind, Prog.ite_bind]
  refine Or.inr ⟨by simp [claimOutline, Plain, Cmd.part], fun ret hret => ?_⟩
  obtain rfl : ret = w.verifyReceipt (msg.get "receipt_data") := hret
  refine Outline.before_ite (fun _ => ?_) fun _ => before_settle_false
  refine Or.inr ⟨by simp [claimOutline, Plain, Cmd.part], fun val _ => ?_⟩
  refine Outline.before_ite (fun _ => before_settle_false) fun _ => ?_
  exact Or.inl ⟨⟨_, hpay, rfl, by simp⟩, fun _ => plain_settle true⟩

theorem before_weixin (hch : channel (msg.get "platform") = some .weixin) :
    (claimOutline w msg).Before
      (verifyWeixin (msg.get "receipt_data") (chargeMoney (msg.get "addCoin")) >>= fun b =>
        settle now msg b) := by
  have hpay : payment w msg = some (.weixin (msg.get "receipt_data").text) := by
    simp [payment, hch]
  unfold verifyWeixin getOutTradeNoRecord
  simp only [Prog.call_bind, Prog.op_bind, Prog.pure_eq_ret, Prog.ret_bind, Prog.ite_bind]
  refine Or.inr ⟨by simp [claimOutline, Plain, Cmd.part], fun record hrecord => ?_⟩
  refine Outline.before_ite (fun hfits => ?_) fun _ => ?_
  · refine Or.inl ⟨⟨_, hpay, rfl, ?_⟩, fun _ => plain_settle true⟩
    -- a record that fits is there, so its key is one that SSDB accepts
    rintro n ⟨rfl⟩
    refine hrecord ?_
    rintro rfl
    revert hfits
    simp [recordFits, Value.looseLt]
  · refine Or.inr ⟨by simp [claimOutline, Plain, Cmd.part], fun ret hret => ?_⟩
    cases hpack : (pack (msg.get "addCoin")).isSome with
    | true =>
        dsimp only
        rw [hret hpack]
        exact before_settle_false
    | false =>
        refine before_of_all ((plain_settle _).mono (fun _ h => h) fun _ _ _ h => ?_)
        rw [hpack] at h
        cases h

theorem before_addCoin : (claimOutline w msg).Before (AddCoin.addCoin now msg) := by
  unfold AddCoin.addCoin
  cases hch : channel (msg.get "platform") with
  | none => exact fun _ _ => by simp
  | some ch =>
      cases ch with
      | appstore => exact before_appstore hch
      | weixin => exact before_weixin hch
      | win32 =>
          have hpay : payment w msg = none := by simp [payment, hch]
          exact before_of_all ((plain_settle true).mono (fun _ h => h) fun _ _ h => absurd hpay h)

theorem before_notify (rowdata : Option Fields) :
    notifyOutline.Before (weixinPayNotify rowdata) := by
  cases rowdata with
  | none => trivial
  | some rowdata =>
      refine Outline.before_ite (fun _ => ?_) fun _ => trivial
      refine Or.inr ⟨by simp [notifyOutline, Plain, Cmd.part], fun _ _ => ?_⟩
      refine Or.inl ⟨⟨_, _, rfl⟩, fun _ => ?_⟩
      exact (Plain.of_writes (Q := (· = .table .opWexinPayRecord))
        (Handler.Writes.issue (by simp [Cmd.part])) (by simp)).bind fun _ _ => trivial

/-- **Every request follows its outline.** -/
theorem before_handler (job : Job) : (outline w job).Before job.handler := by
  cases job with
  | addCoin now msg => exact before_addCoin
  | notify rowdata => exact before_notify rowdata

end Request

/-! ## Marks -/

section Marks

variable {w : World} {s : Store} {p p' : Payment}

theorem marked_of_plain {c : Cmd} (hc : Plain c) :
    Marked (exec w c s).2 p ↔ Marked s p := by
  cases p with
  | apple t => simp only [Marked, exec_hash_of_part hc.1]
  | weixin n => simp only [Marked, exec_hash_of_part hc.2]

/-- Setting the mark. -/
theorem marked_self (hp : ∀ t, p = .apple t → storableKey t)
    (hp' : ∀ n, p = .weixin n → storableKey n) : Marked (exec w (markCmd p) s).2 p := by
  cases p with
  | apple t =>
      have hlookup := Store.lookup_hset_self (s := s) (h := .appstoreOrderidSet)
        (v := Value.num 1) (hp t rfl)
      simp only [Marked, markCmd, exec, hlookup]
      decide +kernel
  | weixin n => exact Store.lookup_hset_self (hp' n rfl)

/-- A write of an order record keeps the marks, unless it replaces a mark by a fee. -/
theorem marked_hset_weixin {n : String} {fee : ℤ} (h : Marked s p)
    (hfee : p = .weixin n → fee = 0) :
    Marked (s.hset .wexinOutTradeNoSet n fee) p := by
  cases p with
  | apple t =>
      have hne : HashName.appstoreOrderidSet ≠ .wexinOutTradeNoSet := by decide
      rwa [Marked, Store.hset_hash_of_ne hne]
  | weixin n' =>
      by_cases hn : n' = n
      · subst hn
        have hk : storableKey n' := by
          by_contra hk
          have hnone := Store.lookup_of_not_storable (s := s) (h := .wexinOutTradeNoSet) hk
          rw [Marked, hnone] at h
          cases h
        rw [Marked, Store.lookup_hset_self hk, hfee rfl]
      · rwa [Marked, Store.lookup_hset_of_ne hn]

theorem marked_hset_apple {t : String} (h : Marked s p) :
    Marked (s.hset .appstoreOrderidSet t (.num 1)) p := by
  cases p with
  | weixin n =>
      have hne : HashName.wexinOutTradeNoSet ≠ .appstoreOrderidSet := by decide
      rwa [Marked, Store.hset_hash_of_ne hne]
  | apple t' =>
      by_cases hk : storableKey t
      · by_cases ht : t' = t
        · subst ht
          exact marked_self (w := World.plain) (p := .apple t') (by rintro _ ⟨rfl⟩; exact hk) (by simp)
        · rwa [Marked, Store.lookup_hset_of_ne ht]
      · rwa [Store.hset_of_not_storable hk]

theorem marked_mark (h : Marked s p) : Marked (exec w (markCmd p') s).2 p := by
  cases p' with
  | apple t => exact marked_hset_apple h
  | weixin n => exact marked_hset_weixin h fun _ => rfl

end Marks

/-! ## All requests -/

section Requests

variable {ι : Type} [DecidableEq ι] (w : World) (job : ι → Job)

/-- The requests, all still to start. -/
def start (s : Store) : Pool ι Cmd Cmd.Resp Reply Store :=
  { thread := fun i => (job i).handler, store := s }

/-- What every step keeps: some of the requests have passed their marks; the payments of these
are marked, and no two of them have the same. -/
structure Inv (cfg : Pool ι Cmd Cmd.Resp Reply Store) (D : Finset ι) : Prop where
  outlined : Outlined (fun i => outline w (job i)) D cfg.thread
  marked : ∀ i ∈ D, ∀ now msg p, job i = .addCoin now msg → payment w msg = some p →
    Marked cfg.store p
  unique : ∀ i ∈ D, ∀ j ∈ D, ∀ now msg now' msg' p, job i = .addCoin now msg →
    job j = .addCoin now' msg' → payment w msg = some p → payment w msg' = some p → i = j

variable {w job} {cfg : Pool ι Cmd Cmd.Resp Reply Store} {D : Finset ι} {i : ι}

omit [DecidableEq ι] in
/-- The answers are those the requests were checked for. -/
theorem ok_of_recorded (hg : Recorded w job cfg i) (c : Cmd) (k : c.Resp → Handler Reply)
    (hop : cfg.thread i = .op c k) : (outline w (job i)).ok c (exec w c cfg.store).1 := by
  unfold Recorded at hg
  cases hjob : job i with
  | notify rowdata => trivial
  | addCoin now msg =>
      rw [hjob, hop] at hg
      cases c with
      | verifyReceipt x => exact rfl
      | orderquery x => exact hg
      | hget h k' =>
          cases h with
          | wexinOutTradeNoSet =>
              intro hsome
              by_contra hk
              exact hsome (Store.lookup_of_not_storable hk)
          | _ => trivial
      | _ => trivial

omit [DecidableEq ι] in
/-- A step that keeps the marks and does not pass one. -/
theorem Inv.keep {cfg' : Pool ι Cmd Cmd.Resp Reply Store} (h : Inv w job cfg D)
    (hout : Outlined (fun i => outline w (job i)) D cfg'.thread)
    (hmarked : ∀ p, Marked cfg.store p → Marked cfg'.store p) : Inv w job cfg' D :=
  ⟨hout, fun i hi now msg p hjob hp => hmarked p (h.marked i hi now msg p hjob hp), h.unique⟩

/-- A request of `addCoin.php` marks its payment. -/
theorem Inv.step_claim {cfg' : Pool ι Cmd Cmd.Resp Reply Store} (h : Inv w job cfg D)
    {now : ℕ} {msg : JsonObject} {p : Payment} (hjob : job i = .addCoin now msg)
    (hp : payment w msg = some p)
    (hout : Outlined (fun i => outline w (job i)) (insert i D) cfg'.thread)
    (hnew : ¬ Marked cfg.store p) (hself : Marked cfg'.store p)
    (hmarked : ∀ p, Marked cfg.store p → Marked cfg'.store p) : Inv w job cfg' (insert i D) := by
  -- a request that has marked the same payment would have left the mark
  have hfirst : ∀ j ∈ D, ∀ now' msg', job j = .addCoin now' msg' → payment w msg' ≠ some p :=
    fun j hj now' msg' hjob' hp' => hnew (h.marked j hj now' msg' p hjob' hp')
  refine ⟨hout, ?_, ?_⟩
  · intro j hj now' msg' p' hjob' hp'
    rcases Finset.mem_insert.mp hj with rfl | hj
    · cases hjob.symm.trans hjob'
      cases hp.symm.trans hp'
      exact hself
    · exact hmarked p' (h.marked j hj now' msg' p' hjob' hp')
  · intro j hj j' hj' now₁ msg₁ now₂ msg₂ p' hjob₁ hjob₂ hp₁ hp₂
    rcases Finset.mem_insert.mp hj with hji | hjD <;>
      rcases Finset.mem_insert.mp hj' with hji' | hjD'
    · rw [hji, hji']
    · rw [hji] at hjob₁
      cases hjob.symm.trans hjob₁
      cases hp.symm.trans hp₁
      exact absurd hp₂ (hfirst j' hjD' now₂ msg₂ hjob₂)
    · rw [hji'] at hjob₂
      cases hjob.symm.trans hjob₂
      cases hp.symm.trans hp₂
      exact absurd hp₁ (hfirst j hjD now₁ msg₁ hjob₁)
    · exact h.unique j hjD j' hjD' now₁ msg₁ now₂ msg₂ p' hjob₁ hjob₂ hp₁ hp₂

/-- A notification passes its write. -/
theorem Inv.step_notify {cfg' : Pool ι Cmd Cmd.Resp Reply Store} (h : Inv w job cfg D)
    {rowdata : Option Fields} (hjob : job i = .notify rowdata)
    (hout : Outlined (fun i => outline w (job i)) (insert i D) cfg'.thread)
    (hmarked : ∀ p, Marked cfg.store p → Marked cfg'.store p) : Inv w job cfg' (insert i D) := by
  have hmem : ∀ j ∈ insert i D, ∀ now msg, job j = .addCoin now msg → j ∈ D := by
    intro j hj now msg hjob'
    refine Finset.mem_of_mem_insert_of_ne hj ?_
    rintro rfl
    cases hjob.symm.trans hjob'
  refine ⟨hout, ?_, ?_⟩
  · intro j hj now msg p hjob' hp
    exact hmarked p (h.marked j (hmem j hj now msg hjob') now msg p hjob' hp)
  · intro j hj j' hj' now₁ msg₁ now₂ msg₂ p hjob₁ hjob₂
    exact h.unique j (hmem j hj now₁ msg₁ hjob₁) j' (hmem j' hj' now₂ msg₂ hjob₂) now₁ msg₁ now₂
      msg₂ p hjob₁ hjob₂

theorem inv_step (h : ∃ D, Inv w job cfg D) (hg : Recorded w job cfg i) :
    ∃ D, Inv w job (cfg.step (exec w) i) D := by
  obtain ⟨D, h⟩ := h
  rcases h.outlined.step_cases (exec w) i (ok_of_recorded hg) with
    hstep | ⟨c, hc, hstore, ⟨-, hquiet, hout⟩ | ⟨-, hmark, hout⟩ | ⟨-, hafter, hout⟩⟩
  · rw [hstep]
    exact ⟨D, h⟩
  · refine ⟨D, h.keep hout fun p hp => ?_⟩
    rw [hstore, marked_of_plain (by cases hjob : job i <;> rw [hjob] at hquiet <;> exact hquiet)]
    exact hp
  · refine ⟨insert i D, ?_⟩
    unfold Recorded at hg
    cases hjob : job i with
    | addCoin now msg =>
        rw [hjob] at hmark hg
        obtain ⟨p, hp, rfl, hweixin⟩ := hmark
        rw [hc] at hg
        have hguard : ¬ Marked cfg.store p ∧ ∀ t, p = .apple t → storableKey t := by
          cases p with
          | apple t => exact ⟨hg.2, by rintro _ ⟨rfl⟩; exact hg.1⟩
          | weixin n => exact ⟨hg, by simp⟩
        obtain ⟨hnew, happle⟩ := hguard
        refine h.step_claim hjob hp hout hnew ?_ fun p' hp' => ?_
        · rw [hstore]; exact marked_self happle hweixin
        · rw [hstore]; exact marked_mark hp'
    | notify rowdata =>
        rw [hjob] at hmark hg
        obtain ⟨n, fee, rfl⟩ := hmark
        rw [hc] at hg
        refine h.step_notify hjob hout fun p hp => ?_
        rw [hstore]
        refine marked_hset_weixin hp ?_
        rintro rfl
        exact hg hp
  · refine ⟨D, h.keep hout fun p hp => ?_⟩
    rw [hstore, marked_of_plain (by cases hjob : job i <;> rw [hjob] at hafter <;> exact hafter)]
    exact hp

/-- **Each payment is credited at most once**, in every interleaving of requests and
notifications in which every payment that is accepted leaves its mark: two requests that were
credited for the same payment are the same request. -/
theorem payment_credited_once (w : World) (job : ι → Job) (s : Store) (schedule : List ι)
    (hg : Guarded (Pool.step (exec w)) (Recorded w job) (start job s) schedule) (p : Payment)
    (i j : ι) (hi : Credited w job (schedule.foldl (Pool.step (exec w)) (start job s)) p i)
    (hj : Credited w job (schedule.foldl (Pool.step (exec w)) (start job s)) p j) : i = j := by
  have hstart : Inv w job (start job s) ∅ :=
    ⟨⟨fun i _ => before_handler (job i), by simp⟩, by simp, by simp⟩
  obtain ⟨D, h⟩ := hg.invariant (I := fun cfg => ∃ D, Inv w job cfg D)
    (fun cfg i h hg => inv_step h hg) ⟨∅, hstart⟩
  -- a request that was credited has passed its mark
  have hmem : ∀ i, Credited w job (schedule.foldl (Pool.step (exec w)) (start job s)) p i →
      i ∈ D := by
    rintro i ⟨now, msg, hjob, hp, hpack, hres⟩
    by_contra hi
    cases hthread : (schedule.foldl (Pool.step (exec w)) (start job s)).thread i with
    | ret r =>
        have href := h.outlined.refused_of_notMem hi hthread
        rw [hjob] at href
        rw [hthread] at hres
        exact href (by simp [hp]) hpack hres
    | op c k =>
        rw [hthread] at hres
        cases hres
  obtain ⟨now, msg, hjob, hp, -, -⟩ := id hi
  obtain ⟨now', msg', hjob', hp', -, -⟩ := id hj
  exact h.unique i (hmem i hi) j (hmem j hj) now msg now' msg' p hjob hjob' hp hp'

end Requests

/-! ## The order query leaves no mark -/

/-- A world in which every WeChat order is paid with 600 fen. -/
def paidWorld : World :=
  { World.plain with orderquery := fun _ => ⟨some "SUCCESS", some "SUCCESS", some "600"⟩ }

/-- A user who has recharged before. -/
def sampleStore : Store :=
  Store.empty.hset .user "u_a" (Fields.ofList
    [("unionid", .str "a"), ("userno", .num 100001), ("score", .num 36),
     ("rechargeVal", .num 0), ("todayRechargeVal", .num 0)]).jsonEncode

/-- The notification of the payment of order `o1`, and two requests for its coins. -/
def sampleJob : Fin 3 → Job
  | 0 => .notify (some (Fields.ofList
      [("cash_fee", .str "600"), ("out_trade_no", .str "o1"), ("return_code", .str "SUCCESS"),
       ("transaction_id", .str "t1"), ("sign", .str "F38E397F353E48A34B539EE46A48CBC2")]))
  | _ => .addCoin 0
      { fields := Fields.ofList
          [("unionid", .str "a"), ("platform", .str "android"), ("addCoin", .num 30),
           ("receipt_data", .str "o1")]
        encodable := Fields.encodes_iff.mp rfl }

/-- The notification, then the first request, then the second. -/
def oneByOne : List (Fin 3) :=
  List.replicate 3 0 ++ List.replicate 15 1 ++ List.replicate 15 2

/-- The order is notified and claimed; the second request finds the record cleared, asks WeChat,
and is credited again. -/
theorem payment_credited_twice :
    ¬ ∀ (w : World) (job : Fin 3 → Job) (s : Store) (schedule : List (Fin 3)) (p : Payment)
      (i j : Fin 3), Credited w job (schedule.foldl (Pool.step (exec w)) (start job s)) p i →
      Credited w job (schedule.foldl (Pool.step (exec w)) (start job s)) p j → i = j := by
  intro h
  have htwice := h paidWorld sampleJob sampleStore oneByOne (.weixin "o1") 1 2
    ⟨_, _, rfl, by decide +kernel, by decide +kernel, by decide +kernel⟩
    ⟨_, _, rfl, by decide +kernel, by decide +kernel, by decide +kernel⟩
  exact absurd htwice (by decide)

/-- The notification and the first request alone. -/
theorem payment_claimed :
    Credited paidWorld sampleJob ((oneByOne.take 18).foldl (Pool.step (exec paidWorld))
      (start sampleJob sampleStore)) (.weixin "o1") 1 ∧ (1 : Fin 3) = 1 := by
  have hcredited : Credited paidWorld sampleJob ((oneByOne.take 18).foldl
      (Pool.step (exec paidWorld)) (start sampleJob sampleStore)) (.weixin "o1") 1 :=
    ⟨_, _, rfl, by decide +kernel, by decide +kernel, by decide +kernel⟩
  exact ⟨hcredited, payment_credited_once paidWorld sampleJob sampleStore (oneByOne.take 18)
    (by decide +kernel) (.weixin "o1") 1 1 hcredited hcredited⟩

end PaymentOnce

/-
# Rewards for invitations

A user collects 20 room cards for every invited user who has played six games, for at most 30 of them.
The mark that a target was rewarded (`isInvited`) stands in the target's record, the count of rewards
(`inviteTimes`) in the inviter's, and every endpoint writes whole records.

`Fair` says what the records hold about the rewards given so far.  All requests keep it, if logins do
not lose records and if the inviter of a granted reward can be written and recognised
(`fair_step`).  `invite_rewards_bounded` states the consequences for runs, `target_rewarded_twice` what
happens otherwise.
-/
import DoudizhuBackend.UserRequests

open Php GameData UserStores

namespace InviteRewards

/-- The reward for an invitation: the keys of both users. -/
structure Reward where
  inviter : String
  target : String
  deriving DecidableEq, Repr

/-- The rewards that a user has collected. -/
def collected (vs : List Reward) (k : String) : ℕ := vs.countP fun v => v.inviter = k

/-- The rewards that were given for a user. -/
def targeted (vs : List Reward) (k : String) : ℕ := vs.countP fun v => v.target = k

/-- The record of the user `k`, or a copy of it, says what the user collected and whether a reward was
given for the user. -/
structure Carries (vs : List Reward) (k : String) (o : Fields) : Prop where
  marked : targeted vs k = 0 ∨ o.get "isInvited" = .num 2
  times : o.get "inviteTimes" = .num (collected vs k) ∨
    o.get "inviteTimes" = .null ∧ collected vs k = 0

/-- What the records say about the rewards `vs`.  A user without a record has no part in any. -/
structure Fair (vs : List Reward) (s : Store) : Prop where
  known : ∀ k o, s.record k = some o → Carries vs k o.fields ∧ userKey (o.get "unionid") = k
  unknown : ∀ k, s.record k = none → collected vs k = 0 ∧ targeted vs k = 0
  collected_le : ∀ k, collected vs k ≤ 30
  targeted_le : ∀ k, targeted vs k ≤ 1

section Fair

variable {vs : List Reward} {s s' : Store} {w : World} {k : String} {user data o o' : Fields} {u : Value}
  {now : ℕ}

/-- The empty stores are fair. -/
theorem fair_empty : Fair [] Store.empty where
  known := by
    intro k o ho
    rw [Store.empty_record] at ho
    cases ho
  unknown := fun _ _ => ⟨rfl, rfl⟩
  collected_le := fun _ => Nat.zero_le 30
  targeted_le := fun _ => Nat.zero_le 1

/-- What a record carries depends on two fields. -/
theorem Carries.congr (h : Carries vs k o) (hmark : o'.get "isInvited" = o.get "isInvited")
    (htimes : o'.get "inviteTimes" = o.get "inviteTimes") : Carries vs k o' := by
  obtain ⟨hm, ht⟩ := h
  rw [← hmark] at hm
  rw [← htimes] at ht
  exact ⟨hm, ht⟩

/-- A user without rewards may have any record that has collected none. -/
theorem carries_of_none (h : collected vs k = 0 ∧ targeted vs k = 0) (o : Fields)
    (htimes : o.get "inviteTimes" = .null ∨ o.get "inviteTimes" = .num 0) : Carries vs k o := by
  refine ⟨Or.inl h.2, ?_⟩
  rw [h.1]
  rcases htimes with htimes | htimes
  · exact Or.inr ⟨htimes, rfl⟩
  · exact Or.inl (by rw [htimes]; rfl)

/-- In fair stores every record carries its rewards. -/
theorem Fair.carries (h : Fair vs s) (k : String) : Carries vs k (s.fieldsAt k) := by
  cases hrecord : s.record k with
  | none =>
      rw [Store.fieldsAt_of_none hrecord]
      exact carries_of_none (h.unknown k hrecord) ∅ (Or.inl rfl)
  | some o =>
      rw [Store.fieldsAt_of_record hrecord]
      exact (h.known k o hrecord).1

/-- Fairness depends on the records only. -/
theorem Fair.of_record (h : Fair vs s) (hrecord : ∀ k, s'.record k = s.record k) : Fair vs s' where
  known := fun k o ho => h.known k o (by rw [← hrecord, ho])
  unknown := fun k hk => h.unknown k (by rw [← hrecord, hk])
  collected_le := h.collected_le
  targeted_le := h.targeted_le

/-- One record is written. -/
theorem Fair.write (h : Fair vs s) {b : Prop} [Decidable b]
    (hrecord : ∀ k', s'.record k' = if b ∧ k' = k ∧ storableKey k' then o.jsonEncode else s.record k')
    (hcarries : b → Carries vs k o) (hkey : b → userKey (o.get "unionid") = k)
    (henc : b → o.Encodable ∨ s.record k = none) : Fair vs s' := by
  refine ⟨fun k' o' ho' => ?_, fun k' hk' => ?_, h.collected_le, h.targeted_le⟩
  · rw [hrecord] at ho'
    split at ho'
    · rename_i hb
      obtain ⟨hb, rfl, -⟩ := hb
      have hfields : o'.fields = o := by
        by_cases hodd : o.Encodable
        · rw [Fields.jsonEncode_of_encodable hodd] at ho'
          cases ho'
          rfl
        · rw [Fields.jsonEncode_of_not_encodable hodd] at ho'
          cases ho'
      rw [JsonObject.get, hfields]
      exact ⟨hcarries hb, hkey hb⟩
    · exact h.known k' o' ho'
  · rw [hrecord] at hk'
    split at hk'
    · rename_i hb
      obtain ⟨hb, rfl, -⟩ := hb
      rcases henc hb with henc | hnone
      · rw [Fields.jsonEncode_of_encodable henc] at hk'
        cases hk'
      · exact h.unknown k' hnone
    · exact h.unknown k' hk'

/-! ## The methods of `GameData` -/

/-- A copy of the record of the user `u`. -/
structure Copied (vs : List Reward) (u : Value) (user : Fields) : Prop where
  carries : Carries vs (userKey u) user
  encodable : user.Encodable

/-- What `getUser` returns is a copy that carries the rewards. -/
theorem Fair.copied (h : Fair vs s) (hfound : Found (s.record (userKey u)) user) : Copied vs u user where
  carries := (h.carries (userKey u)).congr (hfound.get _ (by decide)) (hfound.get _ (by decide))
  encodable := hfound.encodable

/-- And it is that of its own `unionid`. -/
theorem Fair.keyed (h : Fair vs s) (hfound : Found (s.record (userKey u)) user)
    (hempty : user.isEmpty = false) : userKey (user.get "unionid") = userKey u := by
  rw [hfound.isEmpty] at hempty
  obtain ⟨o, ho⟩ := Option.ne_none_iff_exists'.mp (Option.isNone_eq_false_iff.mp hempty |> Option.isSome_iff_ne_none.mp)
  rw [hfound.get _ (by decide), ho]
  exact (h.known _ o ho).2

/-- A program that reads the record of a user first. -/
theorem fair_getUser {α : Type} {f : Fields → Handler α} {Q : α → Store → Prop}
    (h : ∀ user, Copied vs u user → (user.isEmpty = false → userKey (user.get "unionid") = userKey u) →
      Prog.Triple (exec w) (Fair vs) (f user) Q) :
    Prog.Triple (exec w) (Fair vs) (getUser u >>= f) Q := by
  intro s hs
  have hfound := getUser_found w s u
  rw [Prog.run_bind]
  exact h _ (hs.copied hfound) (hs.keyed hfound) _ (hs.of_record (getUser_record w s u))

/-- A handler that writes no records keeps the stores fair. -/
theorem fair_spares {α : Type} {p : Handler α} {Q : StorePart → Prop} (hp : Handler.Writes Q p)
    (hQ : ¬ Q (.hash .user)) : Prog.Triple (exec w) (Fair vs) p fun _ => Fair vs :=
  fun s hs => hs.of_record fun _ => Store.record_congr (hp.run_hash hQ s)

/-- So does a write of a copy by data that does not name the marks. -/
theorem fair_updateUser2 (hcopy : Copied vs u user) (hdata : data.Encodable)
    (hu : userKey (data.get "unionid") = userKey u) (hmark : "isInvited" ∉ data)
    (htimes : "inviteTimes" ∉ data) :
    Prog.Triple (exec w) (Fair vs) (updateUser2 user data) fun _ => Fair vs := by
  intro s hs
  refine hs.write (updateUser2_record w s user data) (fun _ => ?_) (fun hset => ?_)
    fun _ => Or.inl (hcopy.encodable.merge hdata)
  · rw [hu]
    exact hcopy.carries.congr (Fields.get_merge_of_notMem hmark) (Fields.get_merge_of_notMem htimes)
  · rw [Handler.merge_unionid hset]

/-- So does an update by such data. -/
theorem fair_updateUser (hdata : data.Encodable) (hmark : "isInvited" ∉ data)
    (htimes : "inviteTimes" ∉ data) :
    Prog.Triple (exec w) (Fair vs) (updateUser data) fun _ => Fair vs := by
  intro s hs
  cases hset : data.isset "unionid" with
  | false =>
      rw [updateUser_run_of_unset w s data hset]
      exact hs
  | true =>
      rw [updateUser_run w s data hset]
      exact fair_updateUser2 (hs.copied (getUser_found w s _)) hdata rfl hmark htimes _
        (hs.of_record (getUser_record w s _))

/-- So does a registration. -/
theorem fair_addUser (hs : Fair vs s) (hnone : s.record (userKey (user.get "unionid")) = none) :
    Fair vs ((addUser now user).run (exec w) s).2 := by
  have hrecord : ∀ k', ((addUser now user).run (exec w) s).2.record k' =
      if True ∧ k' = userKey (user.get "unionid") ∧ storableKey k' then (registered now user s).jsonEncode
      else s.record k' := by
    intro k'
    rw [addUser_record]
    simp only [true_and]
  refine hs.write hrecord (fun _ => ?_) (fun _ => ?_) fun _ => Or.inr hnone
  · refine carries_of_none (hs.unknown _ hnone) _ (Or.inr ?_)
    rw [registered_get_of_ne _ _ (by decide), newUser_get,
      if_pos (by simp [registrationFields])]
    simp [registrationFields, Fields.get_ofList_cons]
  · rw [registered_unionid]

/-- So does the reward of the back office. -/
theorem fair_addUserReward (hcopy : Copied vs u user) (hkey : userKey (user.get "unionid") = userKey u) :
    Prog.Triple (exec w) (Fair vs) (addUserReward now user) fun _ => Fair vs := by
  intro s hs
  refine hs.write (addUserReward_record w s now user) (fun _ => ?_) (fun _ => ?_)
    fun _ => Or.inl (rewarded_encodable hcopy.encodable)
  · rw [hkey]
    exact hcopy.carries.congr (rewarded_get_of_notMem (by decide)) (rewarded_get_of_notMem (by decide))
  · rw [rewarded_unionid]

end Fair

/-! ## The requests -/

section Requests

variable {vs : List Reward} {s : Store} {w : World} {user : Fields} {u ip : Value} {now : ℕ}
  {msg : JsonObject}

/-- Changes of other fields of a copy. -/
theorem Copied.congr {user' : Fields} (h : Copied vs u user)
    (hmark : user'.get "isInvited" = user.get "isInvited")
    (htimes : user'.get "inviteTimes" = user.get "inviteTimes") (henc : user'.Encodable) :
    Copied vs u user' :=
  ⟨h.carries.congr hmark htimes, henc⟩

/-- The roll-over writes other fields, into the record and into the copy. -/
theorem fair_clearYesterdayData (hcopy : Copied vs u user) (henc : Fields.encodable u = true)
    {α : Type} {f : Fields → Handler α} {Q : α → Store → Prop}
    (h : ∀ user', Copied vs u user' → user'.get "unionid" = user.get "unionid" →
      Prog.Triple (exec w) (Fair vs) (f user') Q) :
    Prog.Triple (exec w) (Fair vs) (clearYesterdayData now u user >>= f) Q := by
  have hrolled : ∀ g ∈ ["isInvited", "inviteTimes", "unionid"], (rolledOver user).get g = user.get g := by
    intro g hg
    simp only [List.mem_cons, List.not_mem_nil, or_false] at hg
    unfold rolledOver
    rcases hg with rfl | rfl | rfl <;> simp [Fields.get_set]
  intro s hs
  rw [Prog.run_bind]
  unfold clearYesterdayData
  split
  · rw [Prog.run_bind]
    refine h _ (hcopy.congr (hrolled _ (by simp)) (hrolled _ (by simp)) (rolledOver_encodable hcopy.encodable))
      (hrolled _ (by simp)) _ ?_
    refine fair_updateUser (rolloverData_encodable now user henc) ?_ ?_ s hs
    · simp [rolloverData, Fields.mem_ofList]
    · simp [rolloverData, Fields.mem_ofList]
  · exact h user hcopy rfl s hs

/-- The daily top-up writes the score only. -/
theorem fair_dailyTopUp (hcopy : Copied vs u user) (henc : Fields.encodable u = true)
    {α : Type} {f : Fields × ℚ → Handler α} {Q : α → Store → Prop}
    (h : ∀ p, Copied vs u p.1 → p.1.get "unionid" = user.get "unionid" →
      Prog.Triple (exec w) (Fair vs) (f p) Q) :
    Prog.Triple (exec w) (Fair vs) (Login.dailyTopUp now u user >>= f) Q := by
  intro s hs
  have hs1 := fair_spares (w := w) (isAddCoinToday_writes now u) (by simp) s hs
  rw [Prog.run_bind]
  unfold Login.dailyTopUp
  rw [Prog.run_bind]
  split
  · exact h _ hcopy rfl _ hs1
  · split
    · rw [Prog.run_bind]
      refine h _ (hcopy.congr ?_ ?_ (hcopy.encodable.set rfl)) ?_ _ ?_
      · exact Fields.get_set_of_ne (by decide)
      · exact Fields.get_set_of_ne (by decide)
      · exact Fields.get_set_of_ne (by decide)
      · refine fair_updateUser (topUpData_encodable henc) ?_ ?_ _ hs1
        · simp [Login.topUpData, Fields.mem_ofList]
        · simp [Login.topUpData, Fields.mem_ofList]
    · exact h _ hcopy rfl _ hs1

/-- The default of one field keeps the others. -/
theorem setDefault_today_get {g : String} (hg : g ≠ "todayRechargeVal") :
    (user.setDefault "todayRechargeVal" (.num 0)).get g = user.get g := by
  rw [Fields.get_setDefault, if_neg hg]

/-- Handing out the rewards, at the end of `login.php` and in `getUserData.php`. -/
theorem fair_reward (hcopy : Copied vs u user) (hkey : userKey (user.get "unionid") = userKey u) :
    Prog.Triple (exec w) (Fair vs) (addUserReward now (user.setDefault "todayRechargeVal" (.num 0)))
      fun _ => Fair vs := by
  refine fair_addUserReward (u := u) (hcopy.congr ?_ ?_ (hcopy.encodable.setDefault rfl)) ?_
  · exact setDefault_today_get (by decide)
  · exact setDefault_today_get (by decide)
  · rw [setDefault_today_get (by decide), hkey]

/-! ### Login and registration -/

/-- So does an admitted login. -/
theorem fair_admitted (hcopy : Copied vs (msg.get "unionid") user)
    (hkey : userKey (user.get "unionid") = userKey (msg.get "unionid")) :
    Prog.Triple (exec w) (Fair vs) (Login.admitted now msg user) fun _ => Fair vs := by
  have henc := msg.encodable_get "unionid"
  refine fair_clearYesterdayData hcopy henc fun user1 hcopy1 hkey1 => ?_
  refine fair_dailyTopUp hcopy1 henc fun p hcopy2 hkey2 => ?_
  refine .bind (fair_reward hcopy2 ?_) fun _ => .ret fun s hs => hs
  rw [hkey2, hkey1, hkey]

/-- What a login must keep to: a record that is there is not replaced by what JSON cannot hold. -/
def LoginSafe (s : Store) (ip : Value) (msg : JsonObject) : Prop :=
  (s.record (userKey (msg.get "unionid"))).isSome = true → Login.isType msg "weixin" = true →
    (Login.userData ip msg).encodes = true

instance (s : Store) (ip : Value) (msg : JsonObject) : Decidable (LoginSafe s ip msg) :=
  inferInstanceAs (Decidable (_ → _ → _))

/-- So does a login of a user whose data can be encoded. -/
theorem fair_enter (now : ℕ) (hs : Fair vs s) (hsafe : LoginSafe s ip msg)
    (hfound : Found (s.record (userKey (msg.get "unionid"))) user) :
    Fair vs ((Login.enter now ip msg user).run (exec w) s).2 := by
  unfold Login.enter
  split
  · rename_i hempty
    rw [hfound.isEmpty, Option.isNone_iff_eq_none] at hempty
    split
    · rw [Prog.run_bind]
      refine fair_addUser hs ?_
      rw [Login.userData_unionid, hempty]
    · exact hs
  · rename_i hempty
    rw [hfound.isEmpty] at hempty
    split
    · rename_i htype
      rw [Prog.run_bind]
      refine fair_updateUser (Fields.encodes_iff.mp (hsafe ?_ htype)) ?_ ?_ s hs
      · rw [Bool.not_eq_true, Option.isNone_eq_false_iff] at hempty
        exact hempty
      · simp [Login.mem_userData]
      · simp [Login.mem_userData]
    · split
      · split <;> exact hs
      · split <;> exact hs

/-- `login.php` keeps the stores fair. -/
theorem fair_login (hs : Fair vs s) (hsafe : LoginSafe s ip msg) :
    Fair vs ((Login.login now ip msg).run (exec w) s).2 := by
  unfold Login.login
  rw [Prog.run_bind, Prog.run_bind]
  have hrecord := getUser_record w s (msg.get "unionid")
  have hfound : Found (((getUser (msg.get "unionid")).run (exec w) s).2.record (userKey (msg.get "unionid")))
      ((getUser (msg.get "unionid")).run (exec w) s).1 := by
    rw [hrecord]
    exact getUser_found w s (msg.get "unionid")
  have hs1 : Fair vs ((getUser (msg.get "unionid")).run (exec w) s).2 := hs.of_record hrecord
  have hsafe1 : LoginSafe ((getUser (msg.get "unionid")).run (exec w) s).2 ip msg := by
    unfold LoginSafe
    rw [hrecord]
    exact hsafe
  have hs2 := fair_enter (w := w) now hs1 hsafe1 hfound
  split
  · exact hs2
  · refine fair_getUser (Q := fun _ => Fair vs) (fun user hcopy hkey => ?_) _ hs2
    refine .ite (fun _ => .ret fun s hs => hs) fun hempty => ?_
    rw [Bool.or_eq_true, not_or, Bool.not_eq_true] at hempty
    exact fair_admitted hcopy (hkey hempty.1)

/-- What `register.php` must keep to. -/
def RegisterSafe (s : Store) (ip : Value) (msg : JsonObject) : Prop :=
  (s.record (userKey (msg.get "unionid"))).isSome = true → (Login.registerData ip msg).encodes = true

instance (s : Store) (ip : Value) (msg : JsonObject) : Decidable (RegisterSafe s ip msg) :=
  inferInstanceAs (Decidable (_ → _))

/-- `register.php` keeps the stores fair. -/
theorem fair_register (hs : Fair vs s) (hsafe : RegisterSafe s ip msg) :
    Fair vs ((Login.register now ip msg).run (exec w) s).2 := by
  have hfound := getUser_found w s (msg.get "unionid")
  have hrecord := getUser_record w s (msg.get "unionid")
  have hs1 : Fair vs ((getUser (msg.get "unionid")).run (exec w) s).2 := hs.of_record hrecord
  -- the last part only reads
  have hread : Prog.Triple (exec w) (Fair vs) (do
      let user ← getUser (msg.get "unionid")
      if user.isEmpty then sendErrno 1003
      else pure (.send 1000 (Fields.ofList (Login.copied user
        ["unionid", "nickname", "sex", "headimgurl", "city", "roomCardNum", "score", "win", "lose",
         "ip"])))) fun _ => Fair vs :=
    fair_getUser fun user _ _ => .ite (fun _ => .ret fun s hs => hs) fun _ => .ret fun s hs => hs
  unfold Login.register
  rw [Prog.run_bind]
  dsimp only
  split
  · rename_i hempty
    rw [hfound.isEmpty, Option.isNone_iff_eq_none] at hempty
    rw [Prog.run_bind]
    refine hread _ (fair_addUser hs1 ?_)
    rw [registerData_unionid, hrecord, hempty]
  · rename_i hempty
    rw [hfound.isEmpty, Bool.not_eq_true, Option.isNone_eq_false_iff] at hempty
    rw [Prog.run_bind]
    refine hread _ (fair_updateUser (Fields.encodes_iff.mp (hsafe hempty)) ?_ ?_ _ hs1)
    · simp [Login.registerData, Fields.mem_ofList]
    · simp [Login.registerData, Fields.mem_ofList]

/-! ### The players' and the back office's requests -/

/-- A quiet handler keeps the stores fair. -/
theorem fair_quiet {α : Type} {p : Handler α} (hp : Handler.Quiet p) :
    Prog.Triple (exec w) (Fair vs) p fun _ => Fair vs :=
  fair_spares hp fun h => h

/-- `addCoin.php` keeps the stores fair. -/
theorem fair_addCoin : Prog.Triple (exec w) (Fair vs) (AddCoin.addCoin now msg) fun _ => Fair vs := by
  have henc := msg.encodable_get "unionid"
  unfold AddCoin.addCoin
  cases AddCoin.channel (msg.get "platform") with
  | none => exact .ret fun s hs => hs
  | some ch =>
      refine .bind (fair_spares (outside_verify ch _ _) (by simp [Outside])) fun isValid => ?_
      refine fair_getUser fun user _ _ => ?_
      refine .ite (fun _ => .ret fun s hs => hs) fun _ => .ite (fun _ => ?_) fun _ => ?_
      · refine .bind (fair_quiet (Handler.quiet_addRewardPool _)) fun _ => ?_
        refine .bind (fair_spares (insertAddScoreLogMysql_writes _) (by simp)) fun _ => ?_
        refine .bind (fair_updateUser ?_ ?_ ?_) fun _ => ?_
        · exact Fields.encodable_ofList (by simpa [Fields.encodable] using henc)
        · simp [AddCoin.updateData, Fields.mem_ofList]
        · simp [AddCoin.updateData, Fields.mem_ofList]
        refine .bind (fair_quiet (Handler.quiet_addToCounter _ _)) fun _ => ?_
        refine .bind (fair_quiet (Handler.quiet_sitePage _ _)) fun _ => ?_
        exact .bind (fair_quiet (Handler.quiet_addRechargeRecordMysql _)) fun _ => .ret fun s hs => hs
      · exact .bind (fair_quiet (Handler.quiet_addRechargeRecordMysql _)) fun _ => .ret fun s hs => hs

/-- `getExchangeCode.php` keeps the stores fair. -/
theorem fair_getExchangeCode :
    Prog.Triple (exec w) (Fair vs) (Players.getExchangeCode now msg) fun _ => Fair vs := by
  unfold Players.getExchangeCode
  refine .ite (fun _ => ?_) fun _ => .ret fun s hs => hs
  refine fair_getUser fun user hcopy _ => ?_
  cases Players.exchangeRefusal user (msg.get "redPackMoney") with
  | some errno => exact .ret fun s hs => hs
  | none =>
      have hcode : Handler.Quiet (Helper.getCode (user.get "unionid") (msg.get "redPackMoney")) :=
        Handler.Writes.bind (Handler.Writes.issue (by simp [Cmd.part])) fun _ =>
          Handler.Writes.ite (Handler.Writes.ret _) (Handler.Writes.ret _)
      refine .bind (fair_quiet hcode) fun code => ?_
      refine .ite (fun _ => .ret fun s hs => hs) fun _ => ?_
      refine .bind (fair_updateUser ?_ ?_ ?_) fun _ => ?_
      · exact Players.exchangeData_encodable (hcopy.encodable "unionid") _
      · exact fun h => absurd (Players.mem_of_mem_exchangeData h) (by decide)
      · exact fun h => absurd (Players.mem_of_mem_exchangeData h) (by decide)
      · refine .bind (fair_quiet (Handler.quiet_issue ?_)) fun _ => .ret fun s hs => hs
        simp [Cmd.part, StorePart.Aux]

/-- `getUserData.php` keeps the stores fair. -/
theorem fair_getUserData : Prog.Triple (exec w) (Fair vs) (Players.getUserData now msg) fun _ => Fair vs := by
  refine fair_getUser fun user hcopy hkey => ?_
  refine .ite (fun _ => .ret fun s hs => hs) fun hempty => ?_
  exact .bind (fair_reward hcopy (hkey (Bool.not_eq_true _ ▸ hempty))) fun _ => .ret fun s hs => hs

/-- `bindMobile.php` keeps the stores fair. -/
theorem fair_bindMobile : Prog.Triple (exec w) (Fair vs) (Players.bindMobile msg) fun _ => Fair vs := by
  have henc := msg.encodable_get "unionid"
  have hmobile := msg.encodable_get "mobile"
  refine fair_getUser fun user _ _ => ?_
  refine .ite (fun _ => .ret fun s hs => hs) fun _ => ?_
  refine .bind (fair_updateUser ?_ ?_ ?_) fun _ => .ret fun s hs => hs
  · exact Fields.encodable_ofList (by simp [henc, hmobile])
  · simp [Players.mobileData, Fields.mem_ofList]
  · simp [Players.mobileData, Fields.mem_ofList]

/-- A change of the room cards keeps the stores fair. -/
theorem fair_roomCard (henc : Fields.encodable u = true) (n : ℚ) :
    Prog.Triple (exec w) (Fair vs) (updateUser (Players.roomCardData u n)) fun _ => Fair vs :=
  fair_updateUser (roomCardData_encodable henc) (by simp [Players.roomCardData, Fields.mem_ofList])
    (by simp [Players.roomCardData, Fields.mem_ofList])

/-- `gm_sendRoomCard.php` keeps the stores fair. -/
theorem fair_gmSendRoomCard :
    Prog.Triple (exec w) (Fair vs) (Players.gmSendRoomCard msg) fun _ => Fair vs := by
  refine .bind (fair_spares (Handler.Writes.issue (Q := fun _ => False) (by simp [Cmd.part])) id) fun found => ?_
  have hfound : Fields.encodable (found.elim .null Value.str) = true := by cases found <;> rfl
  refine fair_getUser fun sender _ _ => fair_getUser fun receiver _ _ => ?_
  refine .ite (fun _ => .ret fun s hs => hs) fun _ => .ite (fun _ => .ret fun s hs => hs) fun _ => ?_
  refine .bind (fair_roomCard (msg.encodable_get _) _) fun _ => ?_
  exact .bind (fair_roomCard hfound _) fun _ => .ret fun s hs => hs

/-- `gm_buyRoomCard.php` keeps the stores fair. -/
theorem fair_gmBuyRoomCard :
    Prog.Triple (exec w) (Fair vs) (Players.gmBuyRoomCard msg) fun _ => Fair vs := by
  refine fair_getUser fun user hcopy _ => ?_
  refine .ite (fun _ => .ret fun s hs => hs) fun _ => ?_
  exact .bind (fair_roomCard (hcopy.encodable "unionid") _) fun _ => .ret fun s hs => hs

/-- `gm_updateUser.php` keeps the stores fair. -/
theorem fair_gmUpdateUser :
    Prog.Triple (exec w) (Fair vs) (Players.gmUpdateUser msg) fun _ => Fair vs := by
  have hswitch := msg.encodable_get "loginSwitch"
  refine .bind (fair_spares (Handler.Writes.issue (Q := fun _ => False) (by simp [Cmd.part])) id) fun found => ?_
  have hfound : Fields.encodable (found.elim .null Value.str) = true := by cases found <;> rfl
  refine .bind (fair_updateUser ?_ ?_ ?_) fun _ => .ret fun s hs => hs
  · exact Fields.encodable_ofList (by simp [hfound, hswitch])
  · simp [Players.switchData, Fields.mem_ofList]
  · simp [Players.switchData, Fields.mem_ofList]

/-! ### The game server's requests -/

/-- Fairness depends on the users only. -/
theorem fair_sameUsers {s' : Store} (hs : Fair vs s) (hsame : s.SameUsers s') : Fair vs s' :=
  hs.of_record hsame.record

/-- `service_updateUser.php` keeps the stores fair, for a payload that does not name the marks. -/
theorem fair_serviceUpdateUser {msg : GameServer.UpdateMsg}
    (hmark : "isInvited" ∉ msg.userData.fields) (htimes : "inviteTimes" ∉ msg.userData.fields) :
    Prog.Triple (exec w) (Fair vs) (GameServer.serviceUpdateUser now msg) fun _ => Fair vs := by
  have henc := msg.userData.encodable_get "unionid"
  refine .ite (fun _ => ?_) fun _ => .ret fun s hs => hs
  refine fair_getUser fun user hcopy _ => ?_
  refine .bind (M := fun _ => Fair vs) (fun s hs => ?_) fun _ => ?_
  · rw [GameServer.rewardIntroducer_run]
    exact hs
  refine fair_clearYesterdayData hcopy henc fun user' hcopy' _ => ?_
  intro s hs
  obtain ⟨s1, hsame, hrun⟩ := GameServer.update_run w s now msg user'
  have hs1 : Fair vs s1 := fair_sameUsers hs hsame
  rw [hrun]
  split
  · exact hs1
  · rw [GameServer.store, Prog.run_bind, Prog.run_bind]
    refine fair_updateUser2 hcopy' (GameServer.storedData_encodable now msg user') ?_ ?_ ?_ _ ?_
    · rw [GameServer.storedData_unionid]
    · exact fun h => hmark ((GameServer.mem_of_mem_storedData h).resolve_right (by decide))
    · exact fun h => htimes ((GameServer.mem_of_mem_storedData h).resolve_right (by decide))
    · exact fair_spares (outside_logScore _ _) (by simp [Outside]) _ hs1

/-- The commands of `service_gateWay.php` write other fields into the copy. -/
theorem fair_serviceGateWay {msg : GameServer.GatewayMsg} :
    Prog.Triple (exec w) (Fair vs) (GameServer.serviceGateWay now msg) fun _ => Fair vs := by
  have henc := msg.fields.encodable_get "unionid"
  refine .ite (fun _ => ?_) fun _ => .ret fun s hs => hs
  refine fair_getUser fun user hcopy _ => ?_
  refine .ite (fun _ => ?_) fun _ => .ite (fun _ => ?_) fun _ => .ite (fun _ => ?_) fun _ => .ret fun s hs => hs
  · intro s hs
    obtain ⟨s1, hsame, hrun⟩ := GameServer.addRedpack_run w s now msg user
    have hs1 : Fair vs s1 := fair_sameUsers hs hsame
    rw [hrun]
    split
    · have hcopy' : Copied vs (msg.fields.get "unionid") (user.setDefault "totalGetRedPackVal" (.num 0)) := by
        refine hcopy.congr ?_ ?_ (hcopy.encodable.setDefault rfl)
        · rw [Fields.get_setDefault, if_neg (by decide)]
        · rw [Fields.get_setDefault, if_neg (by decide)]
      unfold GameServer.storeRedpack
      rw [Prog.run_bind, Prog.run_bind]
      refine fair_spares (outside_logScore _ _) (by simp [Outside]) _ ?_
      refine fair_updateUser2 hcopy' (GameServer.redpackData_encodable _ _) ?_ ?_ ?_ s1 hs1
      · rw [GameServer.redpackData_unionid]
      · simp [GameServer.redpackData, Fields.mem_ofList]
      · simp [GameServer.redpackData, Fields.mem_ofList]
    · exact hs1
  · refine .bind (fair_quiet (Handler.Writes.when (Handler.quiet_pushBounded _ _ _))) fun _ => ?_
    refine .bind (M := fun _ => Fair vs) ?_ fun _ => .ret fun s hs => hs
    refine .ite (fun _ => ?_) fun _ => .ret fun s hs => hs
    refine .bind (fair_updateUser2 hcopy ?_ ?_ ?_ ?_) fun _ => ?_
    · exact Fields.encodable_ofList (by simpa [Fields.encodable] using henc)
    · simp [GameServer.gameResultData, Fields.get_ofList_cons]
    · simp [GameServer.gameResultData, Fields.mem_ofList]
    · simp [GameServer.gameResultData, Fields.mem_ofList]
    · exact .bind (fair_spares (insertAddScoreLogMysql_writes _) (by simp)) fun _ => .ret fun s hs => hs
  · refine .bind (fair_updateUser2 hcopy ?_ ?_ ?_ ?_) fun _ => .ret fun s hs => hs
    · exact Fields.encodable_ofList (by simpa [Fields.encodable] using henc)
    · simp [GameServer.costRoomCardData, Fields.get_ofList_cons]
    · simp [GameServer.costRoomCardData, Fields.mem_ofList]
    · simp [GameServer.costRoomCardData, Fields.mem_ofList]

end Requests

/-! ## The reward -/

/-- The reward for which `getInviteReward.php` answers 1000. -/
def rewarded (w : World) (s : Store) (l : Arrival) : Option Reward :=
  match l.request with
  | .getInviteReward msg =>
      if ((Players.getInviteReward msg).run (exec w) s).1.errno? = some 1000 then
        (ownerOf s (msg.get "targetUserno")).map fun t =>
          { inviter := userKey (msg.get "unionid"), target := userKey (.str t) }
      else none
  | _ => none

/-- What an invitation must keep to: the record of the inviter can be written, and the text of the
inviter's `unionid` equals the `unionid`. -/
def InviteSafe (s : Store) (msg : JsonObject) : Prop :=
  inviteGranted s msg = true →
    msg.isset "unionid" = true ∧ storableKey (userKey (msg.get "unionid")) ∧
      Value.looseEq (.str (msg.get "unionid").text) (msg.get "unionid") = true

instance (s : Store) (msg : JsonObject) : Decidable (InviteSafe s msg) :=
  inferInstanceAs (Decidable (_ → _ ∧ _ ∧ _))

/-- The records before and after the reward `v`. -/
structure Rewards (s s' : Store) (v : Reward) : Prop where
  ne : v.inviter ≠ v.target
  other : ∀ k, k ≠ v.inviter → k ≠ v.target → s'.record k = s.record k
  quota : Value.looseLt ((s.fieldsAt v.inviter).get "inviteTimes") (.num 30) = true
  inviter : ∃ o, s'.record v.inviter = some o ∧
    o.get "roomCardNum" = .num (((s.fieldsAt v.inviter).get "roomCardNum").toNum + 20) ∧
    o.get "inviteTimes" = .num (((s.fieldsAt v.inviter).get "inviteTimes").toNum + 1) ∧
    o.get "isInvited" = (s.fieldsAt v.inviter).get "isInvited" ∧ userKey (o.get "unionid") = v.inviter
  eligible : Value.looseEq ((s.fieldsAt v.target).get "isInvited") (.num 1) = true
  target : ∃ o, s'.record v.target = some o ∧ o.get "isInvited" = .num 2 ∧
    o.get "inviteTimes" = (s.fieldsAt v.target).get "inviteTimes" ∧ userKey (o.get "unionid") = v.target

section Reward

variable {vs : List Reward} {s s' : Store} {w : World} {user data : Fields} {u : Value}
  {msg : JsonObject} {v : Reward}

/-- When a target counts. -/
theorem inviteRefusal_eq_none_iff : Players.inviteRefusal user = none ↔
    Value.looseEq (user.get "isInvited") (.num 1) = true ∧
      6 ≤ (user.get "win").toNum + (user.get "lose").toNum := by
  have hempty : user.isEmpty = true → Value.looseEq (user.get "isInvited") (.num 1) = false := by
    intro h
    have hnil : user.entries = [] := by simpa [Fields.isEmpty] using h
    have hnull : user.get "isInvited" = .null := by simp [Fields.get, AList.lookup, hnil]
    rw [hnull]
    rfl
  unfold Players.inviteRefusal
  cases hu : user.isEmpty with
  | true => simp [hempty hu]
  | false =>
      cases Value.looseEq (user.get "isInvited") (.num 1) with
      | false => simp
      | true => simp

/-- A refusal is not answered with 1000. -/
theorem errno_of_inviteRefusal {n : ℕ} (h : Players.inviteRefusal user = some n) : n ≠ 1000 := by
  rintro rfl
  unfold Players.inviteRefusal at h
  split at h
  · cases h
  · split at h
    · cases h
    · split at h <;> cases h

/-- The copy that `getUser` returns is refused as the record is. -/
theorem inviteRefusal_congr (hfound : Found (s.record (userKey u)) user) :
    Players.inviteRefusal user = none ↔ Players.inviteRefusal (s.fieldsAt (userKey u)) = none := by
  rw [inviteRefusal_eq_none_iff, inviteRefusal_eq_none_iff, hfound.get _ (by decide),
    hfound.get _ (by decide), hfound.get _ (by decide)]
  exact Iff.rfl

/-- A write to a record that can be stored. -/
theorem updateUser_record_some (data : Fields) (hset : data.isset "unionid" = true) (hdata : data.Encodable)
    (hk : storableKey (userKey (data.get "unionid"))) :
    ∃ o, ((updateUser data).run (exec w) s).2.record (userKey (data.get "unionid")) = some o ∧
      ∀ f, f ≠ "userno" → o.get f =
        if f ∈ data then data.get f else (s.fieldsAt (userKey (data.get "unionid"))).get f := by
  have hfound := getUser_found w s (data.get "unionid")
  have hrecord := updateUser_record w s data (userKey (data.get "unionid"))
  rw [if_pos ⟨hset, rfl, hk⟩, Fields.jsonEncode_of_encodable (hfound.encodable.merge hdata)] at hrecord
  refine ⟨_, hrecord, fun f hf => ?_⟩
  rw [JsonObject.get, Fields.get_merge, hfound.get f hf]
  rfl

/-- What an inviter gets names him. -/
theorem inviterData_unionid (u : Value) (user : Fields) : (Players.inviterData u user).get "unionid" = u := by
  simp [Players.inviterData, Fields.get_ofList_cons]

/-- What a target gets names him. -/
theorem invitedData_unionid {t : String} : (Players.invitedData t).get "unionid" = .str t := by
  simp [Players.invitedData, Fields.get_ofList_cons]

/-- Both writes of a reward. -/
theorem rewardInvite_rewards {t : String} (hset : u ≠ .null) (henc : Fields.encodable u = true)
    (hk : storableKey (userKey u)) (hne : userKey u ≠ userKey (.str t))
    (hrecord : ∃ o, s.record (userKey (.str t)) = some o)
    (heligible : Value.looseEq ((s.fieldsAt (userKey (.str t))).get "isInvited") (.num 1) = true)
    (hquota : Value.looseLt ((s.fieldsAt (userKey u)).get "inviteTimes") (.num 30) = true) :
    ((Players.rewardInvite u t).run (exec w) s).1 = .send 1000 ∅ ∧
      Rewards s ((Players.rewardInvite u t).run (exec w) s).2 ⟨userKey u, userKey (.str t)⟩ := by
  have hfound := getUser_found w s u
  have hget : ∀ k, ((getUser u).run (exec w) s).2.record k = s.record k := getUser_record w s u
  have htimes : ((getUser u).run (exec w) s).1.get "inviteTimes" =
      (s.fieldsAt (userKey u)).get "inviteTimes" := hfound.get _ (by decide)
  have hcards : ((getUser u).run (exec w) s).1.get "roomCardNum" =
      (s.fieldsAt (userKey u)).get "roomCardNum" := hfound.get _ (by decide)
  unfold Players.rewardInvite
  rw [Prog.run_bind, htimes, if_pos hquota, Prog.run_bind, Prog.run_bind]
  refine ⟨rfl, ?_⟩
  generalize ((getUser u).run (exec w) s).1 = user at htimes hcards ⊢
  generalize ((getUser u).run (exec w) s).2 = s1 at hget ⊢
  -- the inviter's record
  have hunionid := inviterData_unionid u user
  obtain ⟨o, ho, hoget⟩ := updateUser_record_some (w := w) (s := s1) (Players.inviterData u user)
    (by rw [Fields.isset_eq_true, hunionid]; exact hset)
    (Fields.encodable_ofList (by simpa [Fields.encodable] using henc)) (by rw [hunionid]; exact hk)
  rw [hunionid] at ho hoget
  have hother : ∀ k, k ≠ userKey u →
      ((updateUser (Players.inviterData u user)).run (exec w) s1).2.record k = s.record k := by
    intro k hk
    rw [updateUser_record_of_ne w _ (by rw [hunionid]; exact hk), hget]
  generalize ((updateUser (Players.inviterData u user)).run (exec w) s1).2 = s2 at ho hother ⊢
  -- the target's record
  have htarget := invitedData_unionid (t := t)
  obtain ⟨o', ho', hoget'⟩ := updateUser_record_some (w := w) (s := s2) (Players.invitedData t)
    (by rw [Fields.isset_eq_true, htarget]; exact Value.noConfusion)
    (Fields.encodable_ofList (by simp [Fields.encodable]))
    (by rw [htarget]; exact hrecord.elim fun o ho => Store.storable_of_record ho)
  rw [htarget] at ho' hoget'
  have hs1 : s1.fieldsAt (userKey u) = s.fieldsAt (userKey u) := Store.fieldsAt_congr (hget _)
  have hs2 : s2.fieldsAt (userKey (.str t)) = s.fieldsAt (userKey (.str t)) :=
    Store.fieldsAt_congr (hother _ hne.symm)
  refine ⟨hne, fun k hk hk' => ?_, hquota, ⟨o, ?_, ?_, ?_, ?_, ?_⟩, heligible, ⟨o', ho', ?_, ?_, ?_⟩⟩
  · exact (updateUser_record_of_ne w _ (by rw [htarget]; exact hk')).trans (hother k hk)
  · exact (updateUser_record_of_ne w _ (by rw [htarget]; exact hne)).trans ho
  · rw [hoget _ (by decide), hs1, ← hcards]
    simp [Players.inviterData, Fields.mem_ofList, Fields.get_ofList_cons]
  · rw [hoget _ (by decide), hs1, ← htimes]
    simp [Players.inviterData, Fields.mem_ofList, Fields.get_ofList_cons]
  · rw [hoget _ (by decide), hs1]
    simp [Players.inviterData, Fields.mem_ofList]
  · rw [hoget _ (by decide), if_pos (by simp [Players.inviterData, Fields.mem_ofList]), hunionid]
  · rw [hoget' _ (by decide)]
    simp [Players.invitedData, Fields.mem_ofList, Fields.get_ofList_cons]
  · rw [hoget' _ (by decide), hs2]
    simp [Players.invitedData, Fields.mem_ofList]
  · rw [hoget' _ (by decide), if_pos (by simp [Players.invitedData, Fields.mem_ofList]), htarget]

/-- **A granted reward.** -/
theorem getInviteReward_granted (hsafe : InviteSafe s msg) (hgranted : inviteGranted s msg = true) :
    ∃ t, ownerOf s (msg.get "targetUserno") = some t ∧
      ((Players.getInviteReward msg).run (exec w) s).1 = .send 1000 ∅ ∧
      Rewards s ((Players.getInviteReward msg).run (exec w) s).2
        ⟨userKey (msg.get "unionid"), userKey (.str t)⟩ := by
  obtain ⟨hset, hk, hself⟩ := hsafe hgranted
  rw [getInviteReward_run]
  unfold inviteGranted at hgranted
  cases howner : ownerOf s (msg.get "targetUserno") with
  | none =>
      rw [howner] at hgranted
      cases hgranted
  | some t =>
      rw [howner] at hgranted
      simp only [Bool.and_eq_true, Bool.not_eq_true', Option.isNone_iff_eq_none] at hgranted
      obtain ⟨⟨⟨hne, htrue⟩, hrefusal⟩, hquota⟩ := hgranted
      have hfound := getUser_found w s (.str t)
      have hget := getUser_record w s (.str t)
      have hrefusal' := (inviteRefusal_congr hfound).mpr hrefusal
      refine ⟨t, rfl, ?_⟩
      have hother : ¬ Value.looseEq ((some t).elim .null Value.str) (msg.get "unionid") = true := by
        rw [Bool.not_eq_true]
        exact hne
      rw [if_neg hother]
      dsimp only
      rw [if_pos htrue, Prog.run_bind, hrefusal']
      have heligible := (inviteRefusal_eq_none_iff.mp hrefusal).1
      have hkey : userKey (msg.get "unionid") ≠ userKey (.str t) := by
        intro h
        have htext : (msg.get "unionid").text = t := text_of_userKey h
        rw [htext, hne] at hself
        cases hself
      have hrecord : ∃ o, s.record (userKey (.str t)) = some o := by
        refine Option.ne_none_iff_exists'.mp fun hnone => ?_
        rw [Store.fieldsAt_of_none hnone] at heligible
        cases heligible
      generalize ((getUser (.str t)).run (exec w) s).2 = s1 at hget ⊢
      have hfields : ∀ k, s1.fieldsAt k = s.fieldsAt k := fun k => Store.fieldsAt_congr (hget k)
      obtain ⟨hreply, hrewards⟩ := rewardInvite_rewards (w := w) (s := s1) (u := msg.get "unionid") (t := t)
        (JsonObject.isset_eq_true.mp hset) (msg.encodable_get _) hk hkey (by rw [hget]; exact hrecord)
        (by rw [hfields]; exact heligible) (by rw [hfields]; exact hquota)
      refine ⟨hreply, ?_⟩
      obtain ⟨h1, h2, h3, h4, h5, h6⟩ := hrewards
      simp only [hfields, hget] at h2 h3 h4 h5 h6
      exact ⟨h1, h2, h3, h4, h5, h6⟩

/-- **A refused reward.**  The answer has another errno, and no record changes. -/
theorem getInviteReward_refused (hrefused : inviteGranted s msg = false) :
    ((Players.getInviteReward msg).run (exec w) s).1.errno? ≠ some 1000 ∧
      ∀ k, ((Players.getInviteReward msg).run (exec w) s).2.record k = s.record k := by
  have hsend : ∀ n ≠ 1000, ∀ s1 : Store, (∀ k, s1.record k = s.record k) →
      (Reply.send n ∅, s1).1.errno? ≠ some 1000 ∧ ∀ k, (Reply.send n ∅, s1).2.record k = s.record k :=
    fun n hn s1 hs1 => ⟨fun h => hn (Option.some.inj h), hs1⟩
  rw [getInviteReward_run]
  unfold inviteGranted at hrefused
  split
  · exact hsend _ (by decide) s fun k => rfl
  · rename_i hne
    cases howner : ownerOf s (msg.get "targetUserno") with
    | none => exact hsend _ (by decide) s fun k => rfl
    | some t =>
        rw [howner] at hrefused hne
        dsimp only [Option.elim] at hrefused hne ⊢
        split
        · rename_i htrue
          have hfound := getUser_found w s (.str t)
          have hget := getUser_record w s (.str t)
          rw [Prog.run_bind]
          generalize ((getUser (.str t)).run (exec w) s).1 = target at hfound ⊢
          generalize ((getUser (.str t)).run (exec w) s).2 = s1 at hget ⊢
          cases hrefusal : Players.inviteRefusal target with
          | some errno => exact hsend _ (errno_of_inviteRefusal hrefusal) s1 hget
          | none =>
              rw [inviteRefusal_congr hfound] at hrefusal
              -- only the quota is left
              have hquota : Value.looseLt ((s.fieldsAt (userKey (msg.get "unionid"))).get "inviteTimes")
                  (.num 30) = false := by
                simpa [hne, htrue, hrefusal] using hrefused
              have htimes : ((getUser (msg.get "unionid")).run (exec w) s1).1.get "inviteTimes" =
                  (s.fieldsAt (userKey (msg.get "unionid"))).get "inviteTimes" := by
                rw [(getUser_found w s1 (msg.get "unionid")).get _ (by decide), hget]
                rfl
              dsimp only
              unfold Players.rewardInvite
              rw [Prog.run_bind, htimes, hquota, if_neg Bool.false_ne_true]
              refine hsend _ (by decide) _ fun k => ?_
              exact (getUser_record w s1 _ k).trans (hget k)
        · exact hsend _ (by decide) s fun k => rfl

/-- The reward after the rewards `vs`. -/
theorem Fair.reward (h : Fair vs s) (hr : Rewards s s' v) : Fair (vs ++ [v]) s' := by
  obtain ⟨inviter, target⟩ := v
  obtain ⟨hne, hother, hquota, ⟨o, ho, -, hotimes, homark, hokey⟩, heligible, ⟨o', ho', homark', hotimes', hokey'⟩⟩ := hr
  dsimp only at *
  have hcollected : ∀ k, collected (vs ++ [⟨inviter, target⟩]) k =
      collected vs k + if inviter = k then 1 else 0 := by
    intro k
    simp [collected, List.countP_append, List.countP_cons]
  have htargeted : ∀ k, targeted (vs ++ [⟨inviter, target⟩]) k =
      targeted vs k + if target = k then 1 else 0 := by
    intro k
    simp [targeted, List.countP_append, List.countP_cons]
  have hinviter := h.carries inviter
  have htarget := h.carries target
  -- the target was not rewarded before
  have hfirst : targeted vs target = 0 := by
    refine htarget.marked.resolve_right fun hmark => ?_
    rw [hmark] at heligible
    exact absurd heligible (by decide)
  -- and the inviter is below the quota
  have hbelow : collected vs inviter < 30 ∧
      ((s.fieldsAt inviter).get "inviteTimes").toNum = collected vs inviter := by
    rcases hinviter.times with htimes | ⟨htimes, hzero⟩
    · rw [htimes] at hquota ⊢
      rw [Value.looseLt_num_num, decide_eq_true_eq] at hquota
      exact ⟨by exact_mod_cast hquota, rfl⟩
    · rw [htimes, hzero]
      exact ⟨by decide, rfl⟩
  refine ⟨fun k o1 ho1 => ?_, fun k hk => ?_, fun k => ?_, fun k => ?_⟩
  · by_cases hk : k = inviter
    · rw [hk, ho] at ho1
      cases ho1
      rw [hk]
      refine ⟨⟨?_, Or.inl ?_⟩, hokey⟩
      · rw [htargeted, if_neg hne.symm, Nat.add_zero]
        rw [← JsonObject.get, homark]
        exact hinviter.marked
      · rw [hcollected, if_pos rfl, ← JsonObject.get, hotimes, hbelow.2]
        norm_cast
    · by_cases hk' : k = target
      · rw [hk', ho'] at ho1
        cases ho1
        rw [hk']
        refine ⟨⟨Or.inr homark', ?_⟩, hokey'⟩
        rw [hcollected, if_neg hne, Nat.add_zero]
        rw [← JsonObject.get, hotimes']
        exact htarget.times
      · rw [hother k hk hk'] at ho1
        obtain ⟨⟨hmarked, htimes⟩, hkey⟩ := h.known k o1 ho1
        refine ⟨⟨?_, ?_⟩, hkey⟩
        · rw [htargeted, if_neg (Ne.symm hk'), Nat.add_zero]
          exact hmarked
        · rw [hcollected, if_neg (Ne.symm hk), Nat.add_zero]
          exact htimes
  · have hk1 : k ≠ inviter := by
      rintro rfl
      rw [ho] at hk
      cases hk
    have hk2 : k ≠ target := by
      rintro rfl
      rw [ho'] at hk
      cases hk
    rw [hother k hk1 hk2] at hk
    rw [hcollected, htargeted, if_neg (Ne.symm hk1), if_neg (Ne.symm hk2)]
    exact h.unknown k hk
  · rw [hcollected]
    split
    · rename_i hk
      rw [← hk]
      omega
    · exact h.collected_le k
  · rw [htargeted]
    split
    · rename_i hk
      rw [← hk, hfirst]
    · exact h.targeted_le k

end Reward

/-! ## All requests -/

/-- The game server does not itself report the fields of the invitations. -/
def Unmarked (l : Arrival) : Prop :=
  match l.request with
  | .serviceUpdateUser msg => ∀ f ∈ ["isInvited", "inviteTimes", "roomCardNum"], f ∉ msg.userData.fields
  | _ => True

/-- What a request must keep to: no login or registration replaces a record by what JSON cannot hold, and
the inviter of a granted reward can be written and recognised. -/
def Careful (s : Store) (l : Arrival) : Prop :=
  match l.request with
  | .login ip msg => LoginSafe s ip msg
  | .register ip msg => RegisterSafe s ip msg
  | .getInviteReward msg => InviteSafe s msg
  | _ => True

instance : (l : Arrival) → Decidable (Unmarked l)
  | ⟨_, .serviceUpdateUser msg⟩ => inferInstanceAs (Decidable (∀ f ∈ _, f ∉ msg.userData.fields))
  | ⟨_, .login _ _⟩ | ⟨_, .register _ _⟩ | ⟨_, .addCoin _⟩ | ⟨_, .weixinPayNotify _⟩
  | ⟨_, .getExchangeCode _⟩ | ⟨_, .getIntroducer _⟩ | ⟨_, .getUserData _⟩ | ⟨_, .bindMobile _⟩
  | ⟨_, .getInviteReward _⟩ | ⟨_, .getRoomResults _⟩ | ⟨_, .getExchangeRecord _⟩
  | ⟨_, .getNoticeList⟩ | ⟨_, .gmSendRoomCard _⟩ | ⟨_, .gmBuyRoomCard _⟩ | ⟨_, .gmUpdateUser _⟩
  | ⟨_, .gmIntroducerReward _⟩ | ⟨_, .gmGetUser _⟩ | ⟨_, .gmGetUserByUnionid _⟩
  | ⟨_, .gmActivitySetting _⟩ | ⟨_, .serviceGateWay _⟩ | ⟨_, .serviceGetUser _⟩
  | ⟨_, .serviceAddNotice _⟩ | ⟨_, .serviceSubRewardPool _⟩ | ⟨_, .serviceGetRewardPool⟩
  | ⟨_, .serviceGetActInfo⟩ | ⟨_, .serviceGetRoomConfig⟩ => isTrue trivial

instance (s : Store) : (l : Arrival) → Decidable (Careful s l)
  | ⟨_, .login ip msg⟩ => inferInstanceAs (Decidable (LoginSafe s ip msg))
  | ⟨_, .register ip msg⟩ => inferInstanceAs (Decidable (RegisterSafe s ip msg))
  | ⟨_, .getInviteReward msg⟩ => inferInstanceAs (Decidable (InviteSafe s msg))
  | ⟨_, .addCoin _⟩ | ⟨_, .weixinPayNotify _⟩ | ⟨_, .getExchangeCode _⟩ | ⟨_, .getIntroducer _⟩
  | ⟨_, .getUserData _⟩ | ⟨_, .bindMobile _⟩ | ⟨_, .getRoomResults _⟩ | ⟨_, .getExchangeRecord _⟩
  | ⟨_, .getNoticeList⟩ | ⟨_, .gmSendRoomCard _⟩ | ⟨_, .gmBuyRoomCard _⟩ | ⟨_, .gmUpdateUser _⟩
  | ⟨_, .gmIntroducerReward _⟩ | ⟨_, .gmGetUser _⟩ | ⟨_, .gmGetUserByUnionid _⟩
  | ⟨_, .gmActivitySetting _⟩ | ⟨_, .serviceUpdateUser _⟩ | ⟨_, .serviceGateWay _⟩
  | ⟨_, .serviceGetUser _⟩ | ⟨_, .serviceAddNotice _⟩ | ⟨_, .serviceSubRewardPool _⟩
  | ⟨_, .serviceGetRewardPool⟩ | ⟨_, .serviceGetActInfo⟩ | ⟨_, .serviceGetRoomConfig⟩ => isTrue trivial

section Steps

variable {vs : List Reward} {s : Store} {w : World} {l : Arrival}

/-- The requests that give no reward. -/
theorem fair_of_triple (hnone : rewarded w s l = none) (h : Fair vs (l.handler.run (exec w) s).2) :
    Fair (vs ++ (rewarded w s l).toList) (step w s l) := by
  rw [hnone, Option.toList_none, List.append_nil]
  exact h

/-- Requests that only read keep the stores fair. -/
theorem fair_reading (hs : Fair vs s) (h : l.request.Reading) :
    Fair vs (l.handler.run (exec w) s).2 := by
  obtain ⟨u, f, hf, hquiet⟩ := run_of_reading w s h
  rw [hf]
  exact fair_getUser (Q := fun _ => Fair vs) (fun user _ _ => fair_quiet (hquiet user)) s hs

/-- So do requests that do not touch users. -/
theorem fair_aside (hs : Fair vs s) (h : l.request.Aside) : Fair vs (l.handler.run (exec w) s).2 :=
  fair_quiet (quiet_of_aside h) s hs

/-- A request for a reward either gives one or changes no record. -/
theorem getInviteReward_cases (now : ℕ) {msg : JsonObject} (hsafe : InviteSafe s msg) :
    (∃ v, rewarded w s ⟨now, .getInviteReward msg⟩ = some v ∧
        Rewards s (step w s ⟨now, .getInviteReward msg⟩) v) ∨
      rewarded w s ⟨now, .getInviteReward msg⟩ = none ∧
        ∀ k, (step w s ⟨now, .getInviteReward msg⟩).record k = s.record k := by
  have hrewarded : rewarded w s ⟨now, .getInviteReward msg⟩ =
      if ((Players.getInviteReward msg).run (exec w) s).1.errno? = some 1000 then
        (ownerOf s (msg.get "targetUserno")).map fun t => ⟨userKey (msg.get "unionid"), userKey (.str t)⟩
      else none := rfl
  cases hgranted : inviteGranted s msg with
  | true =>
      obtain ⟨t, howner, hreply, hrewards⟩ := getInviteReward_granted (w := w) hsafe hgranted
      rw [hreply, howner] at hrewarded
      exact Or.inl ⟨_, hrewarded, hrewards⟩
  | false =>
      obtain ⟨hreply, hrecord⟩ := getInviteReward_refused (w := w) hgranted
      rw [if_neg hreply] at hrewarded
      exact Or.inr ⟨hrewarded, hrecord⟩

/-- A granted invitation adds its reward to the list, and the records carry it. -/
theorem fair_getInviteReward {now : ℕ} {msg : JsonObject} (hs : Fair vs s) (hsafe : InviteSafe s msg) :
    Fair (vs ++ (rewarded w s ⟨now, .getInviteReward msg⟩).toList)
      (step w s ⟨now, .getInviteReward msg⟩) := by
  rcases getInviteReward_cases (w := w) now hsafe with ⟨v, hv, hrewards⟩ | ⟨hnone, hrecord⟩
  · rw [hv]
    exact hs.reward hrewards
  · exact fair_of_triple hnone (hs.of_record hrecord)

/-- **A request** that keeps to its conditions keeps the records fair. -/
theorem fair_step (hs : Fair vs s) (l : Arrival) (hunmarked : Unmarked l) (hcareful : Careful s l) :
    Fair (vs ++ (rewarded w s l).toList) (step w s l) := by
  obtain ⟨now, request⟩ := l
  cases request with
  | login ip msg => exact fair_of_triple rfl (fair_login hs hcareful)
  | register ip msg => exact fair_of_triple rfl (fair_register hs hcareful)
  | getInviteReward msg => exact fair_getInviteReward hs hcareful
  | addCoin msg => exact fair_of_triple rfl (fair_addCoin s hs)
  | weixinPayNotify rowdata =>
      exact fair_of_triple rfl
        (fair_spares (outside_weixinPayNotify rowdata) (by simp [Outside]) s hs)
  | getExchangeCode msg => exact fair_of_triple rfl (fair_getExchangeCode s hs)
  | getUserData msg => exact fair_of_triple rfl (fair_getUserData s hs)
  | bindMobile msg => exact fair_of_triple rfl (fair_bindMobile s hs)
  | gmSendRoomCard msg => exact fair_of_triple rfl (fair_gmSendRoomCard s hs)
  | gmBuyRoomCard msg => exact fair_of_triple rfl (fair_gmBuyRoomCard s hs)
  | gmUpdateUser msg => exact fair_of_triple rfl (fair_gmUpdateUser s hs)
  | serviceUpdateUser msg =>
      have hmark := hunmarked "isInvited" (by decide)
      have htimes := hunmarked "inviteTimes" (by decide)
      exact fair_of_triple rfl (fair_serviceUpdateUser hmark htimes s hs)
  | serviceGateWay msg => exact fair_of_triple rfl (fair_serviceGateWay s hs)
  | getIntroducer msg => exact fair_of_triple rfl (fair_reading hs trivial)
  | gmIntroducerReward msg => exact fair_of_triple rfl (fair_reading hs trivial)
  | gmGetUser msg => exact fair_of_triple rfl (fair_reading hs trivial)
  | gmGetUserByUnionid msg => exact fair_of_triple rfl (fair_reading hs trivial)
  | serviceGetUser msg => exact fair_of_triple rfl (fair_reading hs trivial)
  | _ => exact fair_of_triple rfl (fair_aside hs trivial)

/-- What a rewarded request does. -/
theorem rewards_of_rewarded {v : Reward} (hcareful : Careful s l) (hv : rewarded w s l = some v) :
    Rewards s (step w s l) v := by
  obtain ⟨now, request⟩ := l
  cases request with
  | getInviteReward msg =>
      rcases getInviteReward_cases (w := w) now hcareful with ⟨v', hv', hrewards⟩ | ⟨hnone, -⟩
      · rw [hv'] at hv
        cases hv
        exact hrewards
      · rw [hnone] at hv
        cases hv
  | _ => cases hv

end Steps

/-! ## Runs -/

/-- The rewards of a run from the empty stores. -/
def rewards (w : World) (ls : List Arrival) : List Reward :=
  eventValues (step w) (rewarded w) Store.empty ls

/-- The room cards of a user. -/
def roomCards (s : Store) (k : String) : ℚ := ((s.fieldsAt k).get "roomCardNum").toNum

/-- **Bounded rewards** in a run from the empty stores: a user is the target of at most one reward and
collects at most 30, a reward is 20 room cards for another user than the target, and a request for a
reward with another answer changes no record. -/
structure Bounded (w : World) (ls : List Arrival) : Prop where
  once : ∀ k, targeted (rewards w ls) k ≤ 1
  quota : ∀ k, collected (rewards w ls) k ≤ 30
  other : ∀ v ∈ rewards w ls, v.inviter ≠ v.target
  cards : ∀ pre l post v, ls = pre ++ l :: post →
    rewarded w (pre.foldl (step w) Store.empty) l = some v →
    roomCards ((pre ++ [l]).foldl (step w) Store.empty) v.inviter =
      roomCards (pre.foldl (step w) Store.empty) v.inviter + 20
  refused : ∀ pre now msg post, ls = pre ++ ⟨now, .getInviteReward msg⟩ :: post →
    ((Players.getInviteReward msg).run (exec w) (pre.foldl (step w) Store.empty)).1.errno? ≠ some 1000 →
    ∀ k, ((pre ++ [⟨now, .getInviteReward msg⟩]).foldl (step w) Store.empty).record k =
      (pre.foldl (step w) Store.empty).record k

/-- **Invite rewards are bounded**, in every run of whole requests in which the game server does not
report the fields of the invitations, no login or registration replaces a record by what JSON cannot
hold, the inviter of a granted reward has a `unionid` that can be stored and equals its text, and the
numbers are plain. -/
theorem invite_rewards_bounded (w : World) {ls : List Arrival}
    (hrun : Guarded (step w) (fun s l => Unmarked l ∧ Careful s l ∧ PlainStep s l) Store.empty ls) :
    Bounded w ls := by
  have hfair : Fair ([] ++ rewards w ls) (ls.foldl (step w) Store.empty) :=
    hrun.history (fun vs s l hs h => fair_step hs l h.1 h.2.1) fair_empty
  rw [List.nil_append] at hfair
  -- each step of the run keeps to its conditions
  have hcareful : ∀ pre l post, ls = pre ++ l :: post → Careful (pre.foldl (step w) Store.empty) l := by
    rintro pre l post rfl
    exact hrun.append.2.1.2.1
  have hreward : ∀ pre l post v, ls = pre ++ l :: post →
      rewarded w (pre.foldl (step w) Store.empty) l = some v →
      Rewards (pre.foldl (step w) Store.empty) ((pre ++ [l]).foldl (step w) Store.empty) v := by
    intro pre l post v hls hv
    rw [List.foldl_append]
    exact rewards_of_rewarded (hcareful pre l post hls) hv
  refine ⟨hfair.targeted_le, hfair.collected_le, fun v hv => ?_, fun pre l post v hls hv => ?_, ?_⟩
  · obtain ⟨pre, l, post, hls, hv⟩ := exists_of_mem_eventValues hv
    exact (hreward pre l post v hls hv).ne
  · obtain ⟨o, ho, hcards, -⟩ := (hreward pre l post v hls hv).inviter
    rw [roomCards, Store.fieldsAt_of_record ho, ← JsonObject.get, hcards]
    rfl
  · intro pre now msg post hls hreply k
    rw [List.foldl_append]
    rcases getInviteReward_cases (w := w) now (hcareful pre _ post hls) with
      ⟨v, hv, -⟩ | ⟨-, hrecord⟩
    · exfalso
      rw [show rewarded w _ ⟨now, .getInviteReward msg⟩ = _ from if_neg hreply] at hv
      cases hv
    · exact hrecord k

/-! ## A target that is rewarded twice -/

/-- The login of a user, with a nickname as the client encodes it. -/
def sampleLogin (unionid nickname : String) : Request :=
  .login (.str "10.0.0.7")
    ⟨Fields.ofList [("unionid", .str unionid), ("nickname", .str nickname), ("urlencode", .num 1),
        ("sex", .num 1), ("headimgurl", .str "h"), ("city", .str "c")],
      Fields.encodable_ofList (by simp [Fields.encodable])⟩

/-- The game server reports six games won. -/
def sampleWins (unionid : String) : Request :=
  .serviceUpdateUser
    ⟨⟨Fields.ofList [("unionid", .str unionid), ("win", .num 6)],
      Fields.encodable_ofList (by simp [Fields.encodable])⟩, none⟩

/-- The user `a` claims the reward for a user number. -/
def sampleInvite (userno : ℕ) : Request :=
  .getInviteReward
    ⟨Fields.ofList [("unionid", .str "a"), ("targetUserno", .num userno)],
      Fields.encodable_ofList (by simp [Fields.encodable])⟩

/-- The day of the samples. -/
def sampleTime : ℕ := 1600000000

/-- Two users, six games, and the reward. -/
def sampleInvitation : List Arrival :=
  [⟨sampleTime, sampleLogin "a" "a"⟩, ⟨sampleTime + 1, sampleLogin "b" "b"⟩,
    ⟨sampleTime + 2, sampleWins "b"⟩, ⟨sampleTime + 3, sampleInvite 100002⟩,
    ⟨sampleTime + 4, sampleInvite 100002⟩]

/-- In the sample run `a` is rewarded once, for `b`. -/
theorem rewards_sampleInvitation_bounded :
    rewards World.plain sampleInvitation = [⟨"u_a", "u_b"⟩] ∧ Bounded World.plain sampleInvitation :=
  ⟨by decide +kernel, invite_rewards_bounded World.plain (by decide +kernel)⟩

/-- The same user loses the record in a login with a nickname that is no text, and enters again. -/
def sampleRebirth : List Arrival :=
  [⟨sampleTime + 5, sampleLogin "b" "%ff"⟩, ⟨sampleTime + 6, sampleLogin "b" "b"⟩,
    ⟨sampleTime + 7, sampleWins "b"⟩, ⟨sampleTime + 8, sampleInvite 100003⟩]

/-- A login replaces a record by nothing, and the user is rewarded as a target again. -/
theorem target_rewarded_twice :
    ¬ ∀ (w : World) (ls : List Arrival), (∀ l ∈ ls, Unmarked l) → Bounded w ls := by
  intro h
  have honce := (h World.plain (sampleInvitation ++ sampleRebirth) (by decide +kernel)).once "u_b"
  exact absurd honce (by decide +kernel)

end InviteRewards

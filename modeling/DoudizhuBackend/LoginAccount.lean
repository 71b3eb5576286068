/-
# What a login keeps of an account

A login of a registered user writes the record up to four times: the data of the client, the
roll-over of the daily data, the daily top-up, and the pending rewards, the last from a copy that
was read before the two writes in between.  `afterAdmitted` is the record that comes out, and
`login_keeps_account_iff` says exactly when it is still the user's account: the number, the score with
its top-up and reward, the room cards and the red packets with their rewards, the mark of the top-up,
and the password.
-/
import DoudizhuBackend.UserRequests

open Php GameData Login UserStores

namespace LoginAccount

/-! ## Records with a number -/

/-- The record under `k` has the fields `o`. -/
def RecordIs (k : String) (o : Fields) (s : Store) : Prop :=
  ∃ r, s.record k = some r ∧ r.fields = o

variable {w : World} {s : Store} {k : String} {o : Fields} {u : Value} {now : ℕ} {msg : JsonObject}
  {ip : Value}

/-- What the record is depends on the record only. -/
theorem RecordIs.of_record {s' : Store} (h : RecordIs k o s) (hrecord : s'.record k = s.record k) :
    RecordIs k o s' := by
  unfold RecordIs
  rw [hrecord]
  exact h

/-- The record can be encoded. -/
theorem RecordIs.encodable (h : RecordIs k o s) : o.Encodable := by
  obtain ⟨r, -, rfl⟩ := h
  exact r.encodable

/-- The key of the record is one that SSDB accepts. -/
theorem RecordIs.storable (h : RecordIs k o s) : storableKey k := by
  obtain ⟨r, hr, -⟩ := h
  exact Store.storable_of_record hr

/-- A record with a number is read as it is. -/
theorem RecordIs.getUser (h : RecordIs k o s) (hno : o.isset "userno" = true) (hu : userKey u = k) :
    (getUser u).run (exec w) s = (o, s) := by
  obtain ⟨r, hr, rfl⟩ := h
  subst hu
  rw [getUser_run_of_numbered w s u fun r' hr' => ?_, Store.fieldsAt_of_record hr]
  rw [hr] at hr'
  cases hr'
  exact hno

/-- The record after an update of a record with a number. -/
theorem RecordIs.updateUser {data : Fields} (h : RecordIs k o s) (hno : o.isset "userno" = true)
    (hdata : data.Encodable) (htarget : Targets k data) :
    RecordIs k (o.merge data) ((updateUser data).run (exec w) s).2 := by
  have hrecord := updateUser_record w s data k
  rw [if_pos ⟨htarget.1, htarget.2.symm, h.storable⟩, h.getUser hno htarget.2,
    Fields.jsonEncode_of_encodable (h.encodable.merge hdata)] at hrecord
  exact ⟨_, hrecord, rfl⟩

/-- An update keeps the marks of the day. -/
theorem updateUser_login (data : Fields) (date : String) :
    ((updateUser data).run (exec w) s).2.hash (.login date) = s.hash (.login date) :=
  updateUser_hash_of_ne w s data nofun nofun

/-! ## The second part of a login -/

/-- The record after the top-up. -/
def afterTopUp (due : Bool) (now : ℕ) (u : Value) (o : Fields) : Fields :=
  if due then (afterRollover now u o).merge (topUpData u) else afterRollover now u o

/-- The copy that the handler goes on with after the top-up. -/
def copyAfterTopUp (due : Bool) (now : ℕ) (o : Fields) : Fields :=
  if due then (copyAfterRollover now o).set "score" (.num 24) else copyAfterRollover now o

/-- The copy that the rewards are added to. -/
def rewardCopy (due : Bool) (now : ℕ) (o : Fields) : Fields :=
  (copyAfterTopUp due now o).setDefault "todayRechargeVal" (.num 0)

/-- The record after the second part of a login: if there are rewards, the copy is written. -/
def afterAdmitted (due : Bool) (now : ℕ) (u : Value) (o : Fields) : Fields :=
  if isAdd o then rewarded (rewardCopy due now o) else afterTopUp due now u o

/-- The fields that a login may write but for the rewards. -/
def dailyNames : List String :=
  ["unionid", "lastLoginTime", "loginDayCount", "todayRedPackCount", "todayRechargeVal", "score",
    "isAcceptDailyReward"]

/-- The roll-over and the top-up change their own fields only. -/
theorem afterTopUp_get_of_notMem {due : Bool} {f : String} (hf : f ∉ dailyNames) :
    (afterTopUp due now u o).get f = o.get f := by
  have hroll : (afterRollover now u o).get f = o.get f :=
    afterRollover_get_of_notMem fun h => hf (by
      revert h
      simp only [rolloverNames, dailyNames, List.mem_cons]
      tauto)
  unfold afterTopUp
  split
  · rw [Fields.get_merge_of_notMem, hroll]
    intro h
    apply hf
    revert h
    simp only [topUpData, Fields.mem_ofList, dailyNames, List.map_cons, List.map_nil, List.mem_cons]
    tauto
  · exact hroll

/-- So it is with the copy that the reward works on. -/
theorem rewardCopy_get_of_notMem {due : Bool} {f : String}
    (hf : f ∉ ["loginDayCount", "todayRedPackCount", "todayRechargeVal", "score"]) :
    (rewardCopy due now o).get f = o.get f := by
  simp only [List.mem_cons, not_or] at hf
  have hroll : (copyAfterRollover now o).get f = o.get f :=
    copyAfterRollover_get_of_notMem (by simp [hf])
  unfold rewardCopy copyAfterTopUp
  rw [Fields.get_setDefault, if_neg hf.2.2.1]
  split
  · rw [Fields.get_set_of_ne hf.2.2.2.1, hroll]
  · exact hroll

/-- They do not change whether a reward is pending. -/
theorem isAdd_rewardCopy {due : Bool} : isAdd (rewardCopy due now o) = isAdd o := by
  refine isAdd_congr fun f hf => rewardCopy_get_of_notMem ?_
  revert f
  decide

/-- What the roll-over block does. -/
theorem clearYesterdayData_run :
    (clearYesterdayData now u o).run (exec w) s =
      if rolloverDue now o then (rolledOver o, ((updateUser (rolloverData now u o)).run (exec w) s).2)
      else (o, s) := by
  unfold clearYesterdayData
  split
  · rw [Prog.run_bind]
    rfl
  · rfl

/-- What the top-up does. -/
theorem dailyTopUp_run {copy : Fields} :
    (dailyTopUp now u copy).run (exec w) s =
      if topUpDue s now u copy then
        ((copy.set "score" (.num 24), 24 - (copy.get "score").toNum),
          ((updateUser (topUpData u)).run (exec w) ((isAddCoinToday now u).run (exec w) s).2).2)
      else ((copy, 0), ((isAddCoinToday now u).run (exec w) s).2) := by
  unfold dailyTopUp topUpDue
  rw [Prog.run_bind, isAddCoinToday_result]
  cases (((s.hash (.login ("login-" ++ Calendar.date now))).lookup u.text).getD .null).toBool with
  | true => rfl
  | false =>
      cases scoreLow copy with
      | false => rfl
      | true =>
          show Prog.run (exec w) (updateUser (topUpData u) >>= fun _ => _) _ = _
          rw [Prog.run_bind]
          rfl

/-- The roll-over of a record with a number. -/
theorem clearYesterdayData_recordIs (now : ℕ) (h : RecordIs k o s) (hno : o.isset "userno" = true)
    (hu : userKey u = k) (hnull : u ≠ .null) (henc : Fields.encodable u = true) :
    let r := (clearYesterdayData now u o).run (exec w) s
    r.1 = copyAfterRollover now o ∧ RecordIs k (afterRollover now u o) r.2 ∧
      ∀ date, r.2.hash (.login date) = s.hash (.login date) := by
  intro r
  have hr : r = _ := clearYesterdayData_run
  unfold copyAfterRollover afterRollover
  rw [hr]
  by_cases hdue : rolloverDue now o = true
  · have htarget : Targets k (rolloverData now u o) := by
      rw [Targets, Fields.isset_eq_true, rolloverData_unionid]
      exact ⟨hnull, hu⟩
    rw [if_pos hdue, if_pos hdue, if_pos hdue]
    exact ⟨rfl, h.updateUser hno (rolloverData_encodable now o henc) htarget, updateUser_login _⟩
  · rw [if_neg hdue, if_neg hdue, if_neg hdue]
    exact ⟨rfl, h, fun _ => rfl⟩

/-- The top-up of a record `o` with a number, of which the handler has the copy `copy`. -/
theorem dailyTopUp_recordIs (now : ℕ) (copy : Fields) (h : RecordIs k o s) (hno : o.isset "userno" = true)
    (hu : userKey u = k) (hnull : u ≠ .null) (henc : Fields.encodable u = true) :
    let r := (dailyTopUp now u copy).run (exec w) s
    r.1.1 = (if topUpDue s now u copy then copy.set "score" (.num 24) else copy) ∧
      RecordIs k (if topUpDue s now u copy then o.merge (topUpData u) else o) r.2 := by
  intro r
  have hr : r = _ := dailyTopUp_run
  have hread : RecordIs k o ((isAddCoinToday now u).run (exec w) s).2 :=
    h.of_record (isAddCoinToday_record w s now u k)
  rw [hr]
  by_cases hdue : topUpDue s now u copy = true
  · have htarget : Targets k (topUpData u) := by
      simp [Targets, Fields.isset, topUpData, Fields.get_ofList_cons, hnull, hu]
    rw [if_pos hdue, if_pos hdue, if_pos hdue]
    exact ⟨rfl, hread.updateUser hno (topUpData_encodable henc) htarget⟩
  · rw [if_neg hdue, if_neg hdue, if_neg hdue]
    exact ⟨rfl, hread⟩

/-- A number that is set stays set. -/
theorem isset_userno_of_get {o' : Fields} (hno : o.isset "userno" = true)
    (hget : o'.get "userno" = o.get "userno") : o'.isset "userno" = true := by
  rw [Fields.isset_eq_true] at *
  rw [hget]
  exact hno

/-- **The second part of a login**, for a record with a number. -/
theorem admitted_recordIs (h : RecordIs k o s) (hno : o.isset "userno" = true)
    (hu : userKey (msg.get "unionid") = k) (hset : msg.isset "unionid" = true)
    (hunionid : o.get "unionid" = msg.get "unionid") :
    RecordIs k (afterAdmitted (topUpDue s now (msg.get "unionid") o) now (msg.get "unionid") o)
      ((admitted now msg o).run (exec w) s).2 := by
  have henc := msg.encodable_get "unionid"
  have hnull := JsonObject.isset_eq_true.mp hset
  generalize hv : msg.get "unionid" = v at *
  unfold admitted
  rw [hv]
  simp only [Prog.run_bind, Prog.pure_eq_ret, Prog.run_ret]
  -- first the rollover, then the daily top-up, each on the copy that the one before returned
  obtain ⟨hcopy, hrecord, hlogin⟩ := clearYesterdayData_recordIs (w := w) now h hno hu hnull henc
  generalize (clearYesterdayData now v o).run (exec w) s = r₁ at *
  have hno₁ : (afterRollover now v o).isset "userno" = true :=
    isset_userno_of_get hno (afterRollover_get_of_notMem (by decide))
  obtain ⟨hcopy₂, hrecord₂⟩ := dailyTopUp_recordIs (w := w) now r₁.1 hrecord hno₁ hu
    hnull henc
  -- the rollover touches neither the score nor the login time that the top-up asks for
  have hdue : topUpDue r₁.2 now v r₁.1 = topUpDue s now v o := by
    unfold topUpDue
    rw [hlogin, hcopy, scoreLow, copyAfterRollover_get_of_notMem (by decide), ← scoreLow]
  rw [hdue] at hcopy₂ hrecord₂
  generalize (dailyTopUp now v r₁.1).run (exec w) r₁.2 = r₂ at *
  have hcopy₃ : r₂.1.1.setDefault "todayRechargeVal" (.num 0) =
      rewardCopy (topUpDue s now v o) now o := by
    rw [hcopy₂, hcopy]
    rfl
  rw [hcopy₃]
  -- last the reward, which is written only when something is pending
  have hreward := addUserReward_record w r₂.2 now (rewardCopy (topUpDue s now v o) now o) k
  rw [rewardCopy_get_of_notMem (f := "unionid") (by decide), isAdd_rewardCopy, hunionid] at hreward
  unfold afterAdmitted
  by_cases hadd : isAdd o = true
  · have hencodable : (rewardCopy (topUpDue s now v o) now o).Encodable := by
      have hroll : (copyAfterRollover now o).Encodable := by
        unfold copyAfterRollover
        split
        · exact rolledOver_encodable h.encodable
        · exact h.encodable
      unfold rewardCopy copyAfterTopUp
      split
      · exact (hroll.set rfl).setDefault rfl
      · exact hroll.setDefault rfl
    rw [if_pos ⟨hadd, hu.symm, h.storable⟩,
      Fields.jsonEncode_of_encodable (rewarded_encodable hencodable)] at hreward
    rw [if_pos hadd]
    exact ⟨_, hreward, rfl⟩
  · rw [if_neg fun h => hadd h.1] at hreward
    rw [if_neg hadd]
    exact hrecord₂.of_record hreward

/-! ## The whole login -/

/-- What is read of a record has a number, its own if there is one. -/
theorem getUser_userno {r : JsonObject} (hrecord : s.record (userKey u) = some r) :
    ((getUser u).run (exec w) s).1.isset "userno" = true ∧
      (r.isset "userno" = true → ((getUser u).run (exec w) s).1.get "userno" = r.get "userno") := by
  by_cases hno : r.isset "userno" = true
  · have hread : (getUser u).run (exec w) s = (r.fields, s) :=
      RecordIs.getUser ⟨r, hrecord, rfl⟩ hno rfl
    rw [hread]
    exact ⟨hno, fun _ => rfl⟩
  · refine ⟨?_, fun h => absurd h hno⟩
    unfold Store.record at hrecord
    unfold getUser
    simp only [Prog.run_bind, Prog.run_call, exec, hrecord]
    rw [if_neg hno, Fields.isset_eq_true]
    simp

/-- The record with the client's data, if `json_encode` accepts it. -/
theorem enter_recordIs (ip : Value) {r : JsonObject} (hu : userKey (msg.get "unionid") = k)
    (hset : msg.isset "unionid" = true) (hrecord : s.record k = some r) :
    let s' := ((updateUser (userData ip msg)).run (exec w) s).2
    s'.record k = none ∨
      ∃ o, (∀ f, f ≠ "userno" → o.get f = (r.fields.merge (userData ip msg)).get f) ∧
        o.isset "userno" = true ∧ (r.isset "userno" = true → o.get "userno" = r.get "userno") ∧
        RecordIs k o s' := by
  intro s'
  subst hu
  have hfound := getUser_found w s (msg.get "unionid")
  have huserno := getUser_userno (w := w) hrecord
  have hnew : s'.record (userKey (msg.get "unionid")) = _ :=
    updateUser_record w s (userData ip msg) (userKey (msg.get "unionid"))
  rw [userData_unionid, if_pos ⟨userData_isset hset, rfl, Store.storable_of_record hrecord⟩] at hnew
  rw [hrecord] at hfound
  generalize ((getUser (msg.get "unionid")).run (exec w) s).1 = user at *
  have hget : (user.merge (userData ip msg)).get "userno" = user.get "userno" :=
    Fields.get_merge_of_notMem fun h => absurd (mem_userData.mp h) (by decide)
  cases hjson : (user.merge (userData ip msg)).jsonEncode with
  | none => exact Or.inl (hnew.trans hjson)
  | some r' =>
      refine Or.inr ⟨user.merge (userData ip msg), fun f hf => ?_, ?_, fun h => ?_,
        ⟨r', hnew.trans hjson, Fields.fields_of_jsonEncode hjson⟩⟩
      · rw [Fields.get_merge, Fields.get_merge, hfound.get f hf]
        rfl
      · exact isset_userno_of_get huserno.1 hget
      · rw [hget]
        exact huserno.2 h

/-- **The login of a registered user by WeChat.**  If it is accepted, the record is what the second part
makes of the record with the client's data; a record without a number has got one. -/
theorem login_recordIs {r : JsonObject} (hu : userKey (msg.get "unionid") = k)
    (hset : msg.isset "unionid" = true) (htype : isType msg "weixin" = true)
    (hrecord : s.record k = some r)
    (herrno : ((login now ip msg).run (exec w) s).1.errno? = some 1000) :
    ∃ o, (∀ f, f ≠ "userno" → o.get f = (r.fields.merge (userData ip msg)).get f) ∧
      o.isset "userno" = true ∧ (r.isset "userno" = true → o.get "userno" = r.get "userno") ∧
      RecordIs k (afterAdmitted (topUpDue s now (msg.get "unionid") r.fields) now (msg.get "unionid") o)
        ((login now ip msg).run (exec w) s).2 := by
  -- the first read
  have hempty := (getUser_found w s (msg.get "unionid")).isEmpty
  rw [hu, hrecord] at hempty
  have hrecord₀ : ((getUser (msg.get "unionid")).run (exec w) s).2.record k = some r := by
    rw [getUser_record, hrecord]
  have hlogin₀ : ∀ date, ((getUser (msg.get "unionid")).run (exec w) s).2.hash (.login date) =
      s.hash (.login date) := fun date => getUser_hash w s _ nofun
  unfold login at herrno ⊢
  rw [Prog.run_bind, Prog.run_bind, enter_run hempty, if_pos htype, Prog.run_bind] at *
  generalize ((getUser (msg.get "unionid")).run (exec w) s).2 = s₀ at *
  have hlogin₁ : ∀ date, ((updateUser (userData ip msg)).run (exec w) s₀).2.hash (.login date) =
      s.hash (.login date) := fun date => (updateUser_login _ date).trans (hlogin₀ date)
  have henter := enter_recordIs (w := w) ip hu hset hrecord₀
  dsimp only at henter
  generalize ((updateUser (userData ip msg)).run (exec w) s₀).2 = s₁ at *
  rcases henter with hnone | ⟨o, hget, hno, hsame, hrecord₁⟩
  · -- the record is lost, and the login refused
    have hfound := (getUser_found w s₁ (msg.get "unionid")).isEmpty
    rw [hu, hnone] at hfound
    rw [hfound] at herrno
    cases herrno
  · rw [hrecord₁.getUser hno hu] at *
    refine ⟨o, hget, hno, hsame, ?_⟩
    dsimp only at herrno ⊢
    by_cases hrefused : (o.isEmpty || switchedOff o) = true
    · rw [if_pos hrefused] at herrno
      cases herrno
    · rw [if_neg hrefused]
      have hunionid : o.get "unionid" = msg.get "unionid" := by
        rw [hget _ (by decide), Fields.get_merge_of_mem (mem_userData.mpr (by decide)), userData_unionid]
      have hdue : topUpDue s₁ now (msg.get "unionid") o = topUpDue s now (msg.get "unionid") r.fields := by
        unfold topUpDue scoreLow
        rw [hlogin₁, hget _ (by decide),
          Fields.get_merge_of_notMem fun h => absurd (mem_userData.mp h) (by decide)]
      rw [← hdue]
      exact admitted_recordIs hrecord₁ hno hu hset hunionid

/-! ## The account -/

/-- The pending reward `g` is added to the field `f`, if it is positive. -/
def Added (old new : Fields) (f g : String) : Prop :=
  if pendingReward old g then new.get f = sumOf old f g ∧ new.get g = .num 0
  else new.get f = old.get f

/-- The account `old` of a user is still there in `new`, after a login with a top-up or without. -/
structure AccountKept (topUp : Bool) (msg : JsonObject) (old new : Fields) : Prop where
  found : new.isEmpty = false
  same : ∀ f ∈ ["userno", "win", "lose", "isInvited", "inviteTimes"], new.get f = old.get f
  rechargeVal : new.get "rechargeVal" =
    if pendingReward old "add_score" then .num ((old.get "rechargeVal").toNum + 1)
    else old.get "rechargeVal"
  roomCardNum : Added old new "roomCardNum" "add_roomCardNum"
  redPackVal : Added old new "redPackVal" "add_redPackVal"
  score : Added (if topUp then old.set "score" (.num 24) else old) new "score" "add_score"
  mark : topUp = true → new.get "isAcceptDailyReward" = .num 1
  password : msg.isset "password" = false → new.get "password" = old.get "password"

/-- What keeps an account: it has a number, the login brings a password or there was none, and no
reward is pending with a top-up that is not marked already. -/
def AccountSafe (topUp : Bool) (msg : JsonObject) (old : Fields) : Prop :=
  old.isset "userno" = true ∧
    (msg.isset "password" = false → old.get "password" = .str "") ∧
    (topUp = true → isAdd old = true → old.get "isAcceptDailyReward" = .num 1)

/-- The numbers of the account are plain, those that a login adds up and those that it only writes again. -/
def PlainAccount (old : Fields) : Prop :=
  old.Counts ["score", "rechargeVal", "roomCardNum", "redPackVal", "add_score", "add_roomCardNum", "add_redPackVal"] ∧
    ∀ f ∈ ["userno", "win", "lose", "isInvited", "inviteTimes", "isAcceptDailyReward", "password"],
      (old.get f).IsExact

instance (old : Fields) : Decidable (PlainAccount old) := inferInstanceAs (Decidable (_ ∧ _))

/-- What has been added depends on two fields. -/
theorem Added.congr {old old' new : Fields} {f g : String} (h : Added old new f g)
    (hf : old'.get f = old.get f) (hg : old'.get g = old.get g) : Added old' new f g := by
  unfold Added sumOf at *
  rw [pendingReward_congr hg, hf, hg]
  exact h

/-- The pending room cards are added. -/
theorem rewarded_roomCardNum (c : Fields) : Added c (rewarded c) "roomCardNum" "add_roomCardNum" := by
  unfold Added rewarded rewardRedPack rewardScore rewardRoomCard
  split_ifs <;> simp [Fields.get_set]

/-- The pending score is added. -/
theorem rewarded_score (c : Fields) : Added c (rewarded c) "score" "add_score" := by
  have hpending := pendingReward_rewardRoomCard c
  unfold Added rewarded rewardRedPack
  rw [← hpending]
  unfold rewardScore
  have hget : ∀ f, f = "score" ∨ f = "add_score" → (rewardRoomCard c).get f = c.get f := by
    intro f hf
    unfold rewardRoomCard
    rcases hf with rfl | rfl <;> split_ifs <;> simp [Fields.get_set]
  unfold sumOf
  rw [hget "score" (Or.inl rfl), hget "add_score" (Or.inr rfl)]
  split_ifs <;> simp [Fields.get_set, hget]

/-- A pending score counts as a recharge. -/
theorem rewarded_recharge (c : Fields) :
    (rewarded c).get "rechargeVal" =
      if pendingReward c "add_score" then .num ((c.get "rechargeVal").toNum + 1)
      else c.get "rechargeVal" := by
  have hpending := pendingReward_rewardRoomCard c
  have hget : (rewardRoomCard c).get "rechargeVal" = c.get "rechargeVal" := by
    unfold rewardRoomCard
    split_ifs <;> simp [Fields.get_set]
  unfold rewarded rewardRedPack
  rw [← hpending, ← hget]
  unfold rewardScore
  split_ifs <;> simp [Fields.get_set]

/-- The pending red packet is added. -/
theorem rewarded_redPackVal (c : Fields) : Added c (rewarded c) "redPackVal" "add_redPackVal" := by
  have hget : ∀ f, f = "redPackVal" ∨ f = "add_redPackVal" →
      (rewardScore (rewardRoomCard c)).get f = c.get f := by
    intro f hf
    unfold rewardScore rewardRoomCard
    rcases hf with rfl | rfl <;> split_ifs <;> simp [Fields.get_set]
  have hadded : Added (rewardScore (rewardRoomCard c)) (rewarded c) "redPackVal" "add_redPackVal" := by
    unfold Added rewarded rewardRedPack
    split_ifs <;> simp [Fields.get_set]
  exact hadded.congr (hget _ (Or.inl rfl)).symm (hget _ (Or.inr rfl)).symm

/-- Without a reward nothing is added. -/
theorem added_of_not_isAdd {old new : Fields} {f g : String} (hadd : isAdd old = false)
    (hg : g ∈ ["add_roomCardNum", "add_score", "add_redPackVal"]) (h : new.get f = old.get f) :
    Added old new f g := by
  unfold isAdd at hadd
  rw [Bool.or_eq_false_iff, Bool.or_eq_false_iff] at hadd
  have hpending : pendingReward old g = false := by
    simp only [List.mem_cons, List.not_mem_nil, or_false] at hg
    rcases hg with rfl | rfl | rfl
    · exact hadd.1.1
    · exact hadd.1.2
    · exact hadd.2
  rw [Added, hpending, if_neg Bool.false_ne_true]
  exact h

section AfterAdmitted

variable (due : Bool) (now : ℕ) (u : Value) (o : Fields)

/-- An admitted login changes these fields only. -/
theorem afterAdmitted_get_of_notMem {f : String} (hdaily : f ∉ dailyNames) (hreward : f ∉ rewardNames) :
    (afterAdmitted due now u o).get f = o.get f := by
  unfold afterAdmitted
  split
  · rw [rewarded_get_of_notMem hreward, rewardCopy_get_of_notMem]
    intro h
    apply hdaily
    revert h
    simp only [dailyNames, List.mem_cons]
    tauto
  · exact afterTopUp_get_of_notMem hdaily

/-- After an admitted login the pending room cards are added. -/
theorem afterAdmitted_roomCardNum :
    Added o (afterAdmitted due now u o) "roomCardNum" "add_roomCardNum" := by
  unfold afterAdmitted
  split
  · exact (rewarded_roomCardNum _).congr (rewardCopy_get_of_notMem (by decide)).symm
      (rewardCopy_get_of_notMem (by decide)).symm
  · exact added_of_not_isAdd (Bool.not_eq_true _ ▸ ‹_›) (by decide) (afterTopUp_get_of_notMem (by decide))

/-- And the pending red packet. -/
theorem afterAdmitted_redPackVal :
    Added o (afterAdmitted due now u o) "redPackVal" "add_redPackVal" := by
  unfold afterAdmitted
  split
  · exact (rewarded_redPackVal _).congr (rewardCopy_get_of_notMem (by decide)).symm
      (rewardCopy_get_of_notMem (by decide)).symm
  · exact added_of_not_isAdd (Bool.not_eq_true _ ▸ ‹_›) (by decide) (afterTopUp_get_of_notMem (by decide))

/-- And a pending score counts as a recharge. -/
theorem afterAdmitted_rechargeVal :
    (afterAdmitted due now u o).get "rechargeVal" =
      if pendingReward o "add_score" then .num ((o.get "rechargeVal").toNum + 1)
      else o.get "rechargeVal" := by
  unfold afterAdmitted
  split
  · rw [rewarded_recharge, rewardCopy_get_of_notMem (by decide),
      pendingReward_congr (rewardCopy_get_of_notMem (by decide))]
  · rename_i hadd
    have hpending : pendingReward o "add_score" = false := by
      rw [Bool.not_eq_true, isAdd, Bool.or_eq_false_iff, Bool.or_eq_false_iff] at hadd
      exact hadd.1.2
    rw [hpending, if_neg Bool.false_ne_true, afterTopUp_get_of_notMem (by decide)]

/-- And the pending score is added, to the top-up if that is due. -/
theorem afterAdmitted_score :
    Added (if due then o.set "score" (.num 24) else o) (afterAdmitted due now u o) "score"
      "add_score" := by
  have hold : ∀ f, f ≠ "score" → (if due then o.set "score" (.num 24) else o).get f = o.get f := by
    intro f hf
    split
    · exact Fields.get_set_of_ne hf
    · rfl
  unfold afterAdmitted
  by_cases hadd : isAdd o = true
  · rw [if_pos hadd]
    refine (rewarded_score _).congr ?_ ?_
    · unfold rewardCopy copyAfterTopUp
      rw [Fields.get_setDefault, if_neg (show "score" ≠ "todayRechargeVal" by decide)]
      split
      · rw [Fields.get_set_self, Fields.get_set_self]
      · exact (copyAfterRollover_get_of_notMem (by decide)).symm
    · rw [hold _ (by decide)]
      exact (rewardCopy_get_of_notMem (by decide)).symm
  · rw [if_neg hadd]
    refine added_of_not_isAdd ?_ (by decide) ?_
    · rw [isAdd_congr fun f hf => hold f (by rintro rfl; exact absurd hf (by decide))]
      exact Bool.not_eq_true _ ▸ hadd
    · unfold afterTopUp
      split
      · rw [Fields.get_set_self, Fields.get_merge_of_mem (by simp [topUpData, Fields.mem_ofList])]
        simp [topUpData, Fields.get_ofList_cons]
      · exact afterRollover_get_of_notMem (by decide)

/-- The mark of the top-up is lost if rewards are written from the copy. -/
theorem afterAdmitted_mark :
    (afterAdmitted due now u o).get "isAcceptDailyReward" =
      if due = true ∧ isAdd o = false then .num 1 else o.get "isAcceptDailyReward" := by
  have hroll : (afterRollover now u o).get "isAcceptDailyReward" = o.get "isAcceptDailyReward" :=
    afterRollover_get_of_notMem (by decide)
  unfold afterAdmitted
  cases hadd : isAdd o with
  | true =>
      rw [if_pos rfl, rewarded_get_of_notMem (by decide), rewardCopy_get_of_notMem (by decide),
        if_neg (by simp)]
  | false =>
      unfold afterTopUp
      rw [if_neg Bool.false_ne_true]
      cases due with
      | false => rw [if_neg Bool.false_ne_true, if_neg (by simp), hroll]
      | true =>
          rw [if_pos rfl, if_pos ⟨rfl, rfl⟩,
            Fields.get_merge_of_mem (by simp [topUpData, Fields.mem_ofList])]
          simp [topUpData, Fields.get_ofList_cons]

end AfterAdmitted

/-- **What a login keeps of an account.**  A login by WeChat of a registered user with plain numbers that is
answered with 1000 keeps the account if and only if the record has its number, the request carries a
password or the stored one is empty, and a top-up with rewards pending finds its mark set. -/
theorem login_keeps_account_iff (w : World) (s : Store) (now : ℕ) (ip : Value) (msg : JsonObject)
    (old : JsonObject) (hset : msg.isset "unionid" = true)
    (hrecord : s.record (userKey (msg.get "unionid")) = some old) (_ : PlainAccount old.fields)
    (htype : isType msg "weixin" = true) :
    let r := (login now ip msg).run (exec w) s
    let topUp := topUpDue s now (msg.get "unionid") old.fields
    r.1.errno? = some 1000 →
      (AccountKept topUp msg old.fields ((getUser (msg.get "unionid")).run (exec w) r.2).1 ↔
        AccountSafe topUp msg old.fields) := by
  intro r topUp herrno
  obtain ⟨o, hget, hno, hsame, hafter⟩ := login_recordIs rfl hset htype hrecord herrno
  -- the fields of the record that the client does not send
  have hold : ∀ f, f ≠ "userno" → f ∉ userData ip msg → o.get f = old.fields.get f := by
    intro f hf hmem
    rw [hget f hf, Fields.get_merge_of_notMem hmem]
  have hclient : ∀ f, f ∉ ["unionid", "nickname", "sex", "headimgurl", "city", "ip", "password", "channel"] →
      f ∉ userData ip msg := fun f hf h => hf (mem_userData.mp h)
  have hadd : isAdd o = isAdd old.fields := by
    refine isAdd_congr fun f hf => hold f ?_ (hclient f ?_)
    · rintro rfl; exact absurd hf (by decide)
    · revert f; decide
  have hpassword : o.get "password" = msg.getD "password" (.str "") := by
    rw [hget _ (by decide), Fields.get_merge_of_mem (mem_userData.mpr (by decide))]
    simp [userData, Fields.get_ofList_cons]
  have huserno : (afterAdmitted topUp now (msg.get "unionid") o).get "userno" = o.get "userno" :=
    afterAdmitted_get_of_notMem _ _ _ _ (by decide) (by decide)
  rw [hafter.getUser (isset_userno_of_get hno huserno) rfl]
  dsimp only
  constructor
  · intro h
    refine ⟨?_, fun hnone => ?_, fun htop hpending => ?_⟩
    · apply isset_userno_of_get hno
      rw [← huserno]
      exact (h.same "userno" (by decide)).symm
    · rw [← h.password hnone, afterAdmitted_get_of_notMem _ _ _ _ (by decide) (by decide), hpassword,
        JsonObject.getD, Fields.getD, if_neg]
      intro hisset
      rw [JsonObject.isset, hisset] at hnone
      cases hnone
    · have hmark := h.mark htop
      rw [afterAdmitted_mark, hadd, hpending, if_neg (by simp), hold _ (by decide) (hclient _ (by decide))]
        at hmark
      exact hmark
  · rintro ⟨hnumber, hnopassword, hmark⟩
    constructor
    · exact isEmpty_of_isset (isset_userno_of_get hno huserno)
    · intro f hf
      simp only [List.mem_cons, List.not_mem_nil, or_false] at hf
      rcases hf with rfl | rfl | rfl | rfl | rfl
      · rw [huserno]
        exact hsame hnumber
      all_goals
        rw [afterAdmitted_get_of_notMem _ _ _ _ (by decide) (by decide),
          hold _ (by decide) (hclient _ (by decide))]
    · rw [afterAdmitted_rechargeVal, hold _ (by decide) (hclient _ (by decide)),
        pendingReward_congr (hold _ (by decide) (hclient _ (by decide)))]
    · exact (afterAdmitted_roomCardNum _ _ _ o).congr (hold _ (by decide) (hclient _ (by decide))).symm
        (hold _ (by decide) (hclient _ (by decide))).symm
    · exact (afterAdmitted_redPackVal _ _ _ o).congr (hold _ (by decide) (hclient _ (by decide))).symm
        (hold _ (by decide) (hclient _ (by decide))).symm
    · refine (afterAdmitted_score _ _ _ o).congr ?_ ?_
      · split
        · rw [Fields.get_set_self, Fields.get_set_self]
        · exact (hold _ (by decide) (hclient _ (by decide))).symm
      · split
        · rw [Fields.get_set_of_ne (by decide), Fields.get_set_of_ne (by decide)]
          exact (hold _ (by decide) (hclient _ (by decide))).symm
        · exact (hold _ (by decide) (hclient _ (by decide))).symm
    · intro htop
      rw [afterAdmitted_mark, hadd]
      cases hpending : isAdd old.fields with
      | false => rw [if_pos ⟨htop, rfl⟩]
      | true =>
          rw [if_neg (by simp), hold _ (by decide) (hclient _ (by decide))]
          exact hmark htop hpending
    · intro hnone
      rw [afterAdmitted_get_of_notMem _ _ _ _ (by decide) (by decide), hpassword, hnopassword hnone,
        JsonObject.getD, Fields.getD, if_neg]
      intro hisset
      rw [JsonObject.isset, hisset] at hnone
      cases hnone

/-- A user who logged in before, with a password and a pending reward. -/
def sampleAccount : JsonObject :=
  ⟨Fields.ofList [("unionid", .str "a"), ("userno", .num 100001), ("score", .num 30), ("add_score", .num 5),
      ("password", .str "secret"), ("lastLoginTime", .str (Calendar.date 1600000000))],
    Fields.encodable_ofList (by simp [Fields.encodable])⟩

/-- The account is the only one. -/
def sampleStore : Store := Store.empty.hset .user "u_a" (some sampleAccount)

/-- He logs in again without a password. -/
def sampleLogin : JsonObject :=
  ⟨Fields.ofList [("unionid", .str "a"), ("nickname", .str "n")],
    Fields.encodable_ofList (by simp [Fields.encodable])⟩

/-- The same with the password. -/
def sampleLoginWithPassword : JsonObject :=
  ⟨Fields.ofList [("unionid", .str "a"), ("nickname", .str "n"), ("password", .str "secret")],
    Fields.encodable_ofList (by simp [Fields.encodable])⟩

/-- A login with a password, with a top-up and a pending score. -/
theorem login_keeps_account_iff_sample :
    let r := (login 1600000060 (.str "ip") sampleLoginWithPassword).run (exec World.plain) sampleStore
    AccountKept false sampleLoginWithPassword sampleAccount.fields
      ((getUser (.str "a")).run (exec World.plain) r.2).1 := by
  refine (login_keeps_account_iff World.plain sampleStore 1600000060 (.str "ip") sampleLoginWithPassword
    sampleAccount (by decide +kernel) (by rfl) (by decide +kernel) (by decide +kernel) (by decide +kernel)).mpr ?_
  exact ⟨by decide +kernel, by decide +kernel, by decide +kernel⟩

/-- **A login without a password clears it.**  The login is answered with 1000, and the password of the
user is empty. -/
theorem login_clears_password :
    let r := (login 1600000060 (.str "ip") sampleLogin).run (exec World.plain) sampleStore
    r.1.errno? = some 1000 ∧ sampleLogin.isset "password" = false ∧
      (sampleStore.fieldsAt "u_a").get "password" = .str "secret" ∧
      (((getUser (.str "a")).run (exec World.plain) r.2).1).get "password" = .str "" := by
  decide +kernel

end LoginAccount

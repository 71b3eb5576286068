/-
# The score log

Every change of a score is meant to be entered in `op_score_log`, with the old score, what is
added, and the new score.  `Ledger` says that the books balance: each entry adds up, and the score
of a user is the one of the registration and the sum of the user's entries.

A request first logs and then writes, or the other way round.  `Booked k d` relates the stores
before and after a part of a request that is about the user under `k`; `d` is what the score has
changed by more than was logged.  A whole request must end with `d = 0`.

This is not so for all requests: the daily top-up is not logged (`top_up_unlogged`), and
`service_updateUser.php` logs the score of the game server and stores another.
`scores_logged` is about the runs in which the top-up is not due and the two scores are the same,
and in which the scores and what is added to them are plain numbers (PHP rounds others).
-/
import DoudizhuBackend.UserRequests

open Php GameData UserStores

namespace ScoreLedger

/-! ## Entries and books -/

/-- The score stored under `k`. -/
def scoreAt (k : String) (s : Store) : ℚ := ((s.fieldsAt k).get "score").toNum

/-- What an entry adds. -/
def added (row : Fields) : ℚ := (row.get "add_score").toNum

/-- `now_score = old_score + add_score`. -/
def Balanced (row : Fields) : Prop :=
  (row.get "now_score").toNum = (row.get "old_score").toNum + added row

/-- The sum of the entries of the user under `k`. -/
def loggedAt (k : String) (rows : List Fields) : ℚ :=
  ((rows.filter fun row => userKey (row.get "unionid") = k).map added).sum

/-- The entries of two lists add up. -/
theorem loggedAt_append (k : String) (rows rows' : List Fields) :
    loggedAt k (rows ++ rows') = loggedAt k rows + loggedAt k rows' := by
  rw [loggedAt, List.filter_append, List.map_append, List.sum_append, loggedAt, loggedAt]

/-- Entries of one user all count. -/
theorem loggedAt_of_forall {k : String} {rows : List Fields}
    (h : ∀ row ∈ rows, userKey (row.get "unionid") = k) :
    loggedAt k rows = (rows.map added).sum := by
  rw [loggedAt, List.filter_eq_self.mpr fun row hrow => by simpa using h row hrow]

/-- Entries of other users do not count. -/
theorem loggedAt_of_ne {k : String} {rows : List Fields}
    (h : ∀ row ∈ rows, userKey (row.get "unionid") ≠ k) : loggedAt k rows = 0 := by
  rw [loggedAt, List.filter_eq_nil_iff.mpr fun row hrow => by simpa using h row hrow]
  rfl

/-- **The books balance.**  Entries are of stored users only. -/
structure Ledger (s : Store) : Prop where
  entry : ∀ row ∈ s.table .opScoreLog, Balanced row
  score : ∀ k o, s.record k = some o →
    (o.get "score").toNum = initialScore (o.get "unionid") + loggedAt k (s.table .opScoreLog)
  owned : ∀ row ∈ s.table .opScoreLog, (s.record (userKey (row.get "unionid"))).isSome = true

/-- The stored score of a user: that of the registration, and the entries. -/
theorem Ledger.score_eq {s : Store} (h : Ledger s) {k : String}
    (hfound : (s.record k).isSome = true) :
    scoreAt k s = initialScore ((s.fieldsAt k).get "unionid") +
      loggedAt k (s.table .opScoreLog) := by
  obtain ⟨o, ho⟩ := Option.isSome_iff_exists.mp hfound
  rw [scoreAt, Store.fieldsAt_of_record ho]
  exact h.score k o ho

/-- In the empty stores nothing is to be booked. -/
theorem ledger_empty : Ledger Store.empty where
  entry := fun row h => by cases h
  score := fun k o h => by cases h
  owned := fun row h => by cases h

/-- From `s` to `s'` only the user under `k` changes, entries of this user are made, and the score
changes by `d` more than by what they add. -/
structure Booked (k : String) (d : ℚ) (s s' : Store) : Prop where
  other : ∀ k', k' ≠ k → s'.record k' = s.record k'
  found : (s.record k).isSome = true → (s'.record k).isSome = true
  entries : ∃ rows, s'.table .opScoreLog = s.table .opScoreLog ++ rows ∧
    (∀ row ∈ rows, userKey (row.get "unionid") = k ∧ Balanced row) ∧
    scoreAt k s' = scoreAt k s + (rows.map added).sum + d

/-- From `s` to `s'` only the user under `k` changes, but not the score, and nothing is logged. -/
structure Kept (k : String) (s s' : Store) : Prop where
  other : ∀ k', k' ≠ k → s'.record k' = s.record k'
  found : (s.record k).isSome = true → (s'.record k).isSome = true
  log : s'.table .opScoreLog = s.table .opScoreLog
  score : scoreAt k s' = scoreAt k s

section Booked

variable {k : String} {d d' : ℚ} {s s' s'' : Store} {w : World}

/-- Nothing has been booked where records and log stay. -/
theorem Kept.of_same (hrecord : ∀ k', s'.record k' = s.record k')
    (hlog : s'.table .opScoreLog = s.table .opScoreLog) : Kept k s s' where
  other := fun k' _ => hrecord k'
  found := fun h => by rwa [hrecord]
  log := hlog
  score := by rw [scoreAt, Store.fieldsAt_congr (hrecord k), scoreAt]

theorem Kept.refl (s : Store) : Kept k s s := Kept.of_same (fun _ => rfl) rfl

/-- The same users have the same scores. -/
theorem Kept.of_sameUsers (h : s.SameUsers s') : Kept k s s' := Kept.of_same h.record h.opScoreLog

/-- Nothing and nothing is nothing. -/
theorem Kept.trans (h : Kept k s s') (h' : Kept k s' s'') : Kept k s s'' where
  other := fun k' hk' => (h'.other k' hk').trans (h.other k' hk')
  found := fun hs => h'.found (h.found hs)
  log := h'.log.trans h.log
  score := h'.score.trans h.score

/-- Nothing is a booking of `0`. -/
theorem Kept.booked (h : Kept k s s') : Booked k 0 s s' := by
  refine ⟨h.other, h.found, [], ?_, ?_, ?_⟩
  · rw [h.log, List.append_nil]
  · intro row hrow
    cases hrow
  · rw [h.score]
    simp

/-- Two bookings add up. -/
theorem Booked.trans (h : Booked k d s s') (h' : Booked k d' s' s'') : Booked k (d + d') s s'' := by
  obtain ⟨rows, hlog, hrows, hscore⟩ := h.entries
  obtain ⟨rows', hlog', hrows', hscore'⟩ := h'.entries
  refine ⟨fun k' hk' => (h'.other k' hk').trans (h.other k' hk'), fun hs => h'.found (h.found hs),
    rows ++ rows', ?_, ?_, ?_⟩
  · rw [hlog', hlog, List.append_assoc]
  · intro row hrow
    rcases List.mem_append.mp hrow with hrow | hrow
    · exact hrows row hrow
    · exact hrows' row hrow
  · rw [hscore', hscore, List.map_append, List.sum_append]
    ring

/-- A booking behind nothing. -/
theorem Kept.then (h : Kept k s s') (h' : Booked k d s' s'') : Booked k d s s'' := by
  have hbooked := h.booked.trans h'
  rwa [zero_add] at hbooked

/-- Nothing behind a booking. -/
theorem Booked.kept (h : Booked k d s s') (h' : Kept k s' s'') : Booked k d s s'' := by
  have hbooked := h.trans h'.booked
  rwa [add_zero] at hbooked

/-- An entry, made without a change of the score. -/
theorem booked_log (hok : ∀ n, w.mysqlOk n = true) {row : Fields}
    (hkey : userKey (row.get "unionid") = k) (hrow : Balanced row) :
    Booked k (-added row) s ((insertAddScoreLogMysql row).run (exec w) s).2 := by
  have hrecord : ∀ k', ((insertAddScoreLogMysql row).run (exec w) s).2.record k' = s.record k' :=
    fun k' => Store.record_congr ((insertAddScoreLogMysql_writes row).run_hash (by simp) s)
  refine ⟨fun k' _ => hrecord k', fun h => by rwa [hrecord], [row], ?_, ?_, ?_⟩
  · simp [insertAddScoreLogMysql, issue, exec, hok, Store.insertRow, Store.nextTick]
  · intro row' hrow'
    rw [List.mem_singleton.mp hrow']
    exact ⟨hkey, hrow⟩
  · rw [scoreAt, Store.fieldsAt_congr (hrecord k), scoreAt, List.map_singleton, List.sum_singleton]
    ring

/-- A write of the record without an entry. -/
theorem booked_write {o' : JsonObject} (hother : ∀ k', k' ≠ k → s'.record k' = s.record k')
    (hself : s'.record k = some o') (hlog : s'.table .opScoreLog = s.table .opScoreLog) :
    Booked k ((o'.get "score").toNum - scoreAt k s) s s' := by
  refine ⟨hother, fun _ => by rw [hself]; rfl, [], ?_, ?_, ?_⟩
  · rw [hlog, List.append_nil]
  · intro row hrow
    cases hrow
  · rw [scoreAt, Store.fieldsAt_of_record hself, ← JsonObject.get]
    simp

/-- **A request about one user** that ends with all changes logged keeps the books. -/
theorem Ledger.booked (hs : Ledger s) (hkeyed : s.Keyed) (hkeyed' : s'.Keyed)
    (hfound : (s.record k).isSome = true) (h : Booked k 0 s s') : Ledger s' := by
  obtain ⟨rows, hlog, hrows, hscore⟩ := h.entries
  have hself := h.found hfound
  refine ⟨?_, ?_, ?_⟩
  · intro row hrow
    rw [hlog] at hrow
    rcases List.mem_append.mp hrow with hrow | hrow
    · exact hs.entry row hrow
    · exact (hrows row hrow).2
  · intro k' o' ho'
    rw [hlog, loggedAt_append]
    by_cases hk' : k' = k
    · subst hk'
      obtain ⟨o, ho⟩ := Option.isSome_iff_exists.mp hfound
      rw [scoreAt, scoreAt, Store.fieldsAt_of_record ho, Store.fieldsAt_of_record ho',
        ← JsonObject.get, ← JsonObject.get, hs.score k' o ho] at hscore
      have htext : (o'.get "unionid").text = (o.get "unionid").text :=
        text_of_userKey ((hkeyed' k' o' ho').trans (hkeyed k' o ho).symm)
      have hinit : initialScore (o'.get "unionid") = initialScore (o.get "unionid") := by
        rw [initialScore, isRaceAi, htext, ← isRaceAi, ← initialScore]
      rw [hscore, hinit, loggedAt_of_forall fun row hrow => (hrows row hrow).1]
      ring
    · rw [h.other k' hk'] at ho'
      have hnone : loggedAt k' rows = 0 := loggedAt_of_ne fun row hrow => by
        rw [(hrows row hrow).1]
        exact Ne.symm hk'
      rw [hs.score k' o' ho', hnone, add_zero]
  · intro row hrow
    rw [hlog] at hrow
    have hkeep : ∀ k', (s.record k').isSome = true → (s'.record k').isSome = true := by
      intro k' hsome
      by_cases hk' : k' = k
      · rw [hk']
        exact hself
      · rwa [h.other k' hk']
    rcases List.mem_append.mp hrow with hrow | hrow
    · exact hkeep _ (hs.owned row hrow)
    · rw [(hrows row hrow).1]
      exact hself

/-- The ledger depends on the records and the log. -/
theorem Ledger.congr (hs : Ledger s) (hrecord : ∀ k, s'.record k = s.record k)
    (hlog : s'.table .opScoreLog = s.table .opScoreLog) : Ledger s' := by
  refine ⟨?_, ?_, ?_⟩
  · rw [hlog]
    exact hs.entry
  · intro k o ho
    rw [hlog]
    exact hs.score k o (hrecord k ▸ ho)
  · rw [hlog]
    intro row hrow
    rw [hrecord]
    exact hs.owned row hrow

end Booked

/-! ## The methods -/

section Methods

variable {k : String} {s : Store} {w : World} {now : ℕ} {data user : Fields} {u : Value}

/-- An update of a stored user. -/
theorem booked_updateUser (hdata : data.Encodable) (hset : data.isset "unionid" = true)
    (hu : userKey (data.get "unionid") = k) (hfound : (s.record k).isSome = true) :
    Booked k ((((s.fieldsAt k).merge data).get "score").toNum - scoreAt k s) s
      ((updateUser data).run (exec w) s).2 := by
  obtain ⟨o, ho⟩ := Option.isSome_iff_exists.mp hfound
  have hread := getUser_found w s (data.get "unionid")
  have hencoded := hread.encodable.merge hdata
  have hself : ((updateUser data).run (exec w) s).2.record k = some ⟨_, hencoded⟩ := by
    rw [updateUser_record, if_pos ⟨hset, hu.symm, Store.storable_of_record ho⟩,
      Fields.jsonEncode_of_encodable hencoded]
  have hbooked := booked_write (fun k' hk' => updateUser_record_of_ne w s (hu ▸ hk')) hself
    (updateUser_table_of_ne w s data (by decide))
  have hscore : (((getUser (data.get "unionid")).run (exec w) s).1.merge data).get "score" =
      ((s.fieldsAt k).merge data).get "score" := by
    rw [Fields.get_merge, Fields.get_merge, hread.get _ (by decide), ← hu]
    rfl
  rwa [JsonObject.get, hscore] at hbooked

/-- An update that names no score. -/
theorem kept_updateUser (hdata : data.Encodable) (hu : userKey (data.get "unionid") = k)
    (hscore : "score" ∉ data) : Kept k s ((updateUser data).run (exec w) s).2 := by
  refine ⟨fun k' hk' => updateUser_record_of_ne w s (hu ▸ hk'), updateUser_isSome w s hdata,
    updateUser_table_of_ne w s data (by decide), ?_⟩
  cases hset : data.isset "unionid" with
  | false => rw [updateUser_run_of_unset w s data hset]
  | true =>
      have hread := getUser_found w s (data.get "unionid")
      have hrecord := updateUser_record w s data k
      split at hrecord
      · rw [Fields.jsonEncode_of_encodable (hread.encodable.merge hdata)] at hrecord
        rw [scoreAt, Store.fieldsAt_of_record hrecord, Fields.get_merge_of_notMem hscore,
          hread.get _ (by decide), hu]
        rfl
      · rw [scoreAt, Store.fieldsAt_congr hrecord, scoreAt]

/-- `updateUser2` of a stored user. -/
theorem booked_updateUser2 (hdata : data.Encodable) (huser : user.Encodable)
    (hset : data.isset "unionid" = true) (hu : userKey (data.get "unionid") = k)
    (hst : storableKey k) :
    Booked k (((user.merge data).get "score").toNum - scoreAt k s) s
      ((updateUser2 user data).run (exec w) s).2 := by
  have hself : ((updateUser2 user data).run (exec w) s).2.record k =
      some ⟨user.merge data, huser.merge hdata⟩ := by
    rw [updateUser2_record, if_pos ⟨hset, hu.symm, hst⟩,
      Fields.jsonEncode_of_encodable (huser.merge hdata)]
  refine booked_write (fun k' hk' => ?_) hself (updateUser2_table_of_ne w s user data (by decide))
  rw [updateUser2_record, if_neg fun h => hk' (h.2.1.trans hu)]

/-- Room cards that are handed out change their two fields only. -/
theorem rewardRoomCard_get {f : String} (hcard : f ≠ "roomCardNum") (hadd : f ≠ "add_roomCardNum") :
    (rewardRoomCard user).get f = user.get f := by
  unfold rewardRoomCard
  split
  · rw [Fields.get_set_of_ne hadd, Fields.get_set_of_ne hcard]
  · rfl

/-- The score after the rewards. -/
theorem rewarded_score :
    (rewarded user).get "score" =
      if pendingReward user "add_score" then sumOf user "score" "add_score"
      else user.get "score" := by
  have hred : ∀ v : Fields, (rewardRedPack v).get "score" = v.get "score" := by
    intro v
    unfold rewardRedPack
    split
    · rw [Fields.get_set_of_ne (by decide), Fields.get_set_of_ne (by decide)]
    · rfl
  rw [rewarded, hred, rewardScore, pendingReward_rewardRoomCard]
  split
  · rw [Fields.get_set_of_ne (by decide), Fields.get_set_of_ne (by decide), Fields.get_set_self,
      sumOf, rewardRoomCard_get (by decide) (by decide),
      rewardRoomCard_get (by decide) (by decide), sumOf]
  · exact rewardRoomCard_get (by decide) (by decide)

/-- The entry of a reward. -/
def rewardLog (now : ℕ) (user : Fields) : Fields :=
  addScoreLog now (rewardRoomCard user) ((rewardRoomCard user).get "add_score")
    (sumOf (rewardRoomCard user) "score" "add_score") "houtai"

/-- The log after `addUser_reward`. -/
theorem addUserReward_opScoreLog (s : Store) (now : ℕ) (user : Fields)
    (hok : ∀ n, w.mysqlOk n = true) :
    ((addUserReward now user).run (exec w) s).2.table .opScoreLog =
      s.table .opScoreLog ++ if pendingReward user "add_score" then [rewardLog now user] else [] := by
  have hlog : (Prog.run (exec w) (Handler.when (pendingReward (rewardRoomCard user) "add_score")
      do let _ ← insertAddScoreLogMysql (rewardLog now user)) s).2.table .opScoreLog =
      s.table .opScoreLog ++
        if pendingReward user "add_score" then [rewardLog now user] else [] := by
    rw [pendingReward_rewardRoomCard]
    cases pendingReward user "add_score" with
    | false => simp [Handler.when]
    | true =>
        simp [Handler.when, insertAddScoreLogMysql, issue, exec, hok, Store.insertRow,
          Store.nextTick]
  rw [← hlog]
  unfold addUserReward
  rw [Prog.run_bind, ← rewardLog]
  generalize (Prog.run (exec w) (Handler.when (pendingReward (rewardRoomCard user) "add_score") _)
    s).2 = s1
  cases isAdd user with
  | false => simp [Handler.when]
  | true =>
      simp only [Handler.when, if_true, Prog.run_bind, Prog.run_call, exec, Prog.pure_eq_ret,
        Prog.run_ret]
      rw [updateUserMysql_table_of_ne w _ _ (by decide), Store.hset_table]

/-- The entry of a reward adds the pending score. -/
theorem rewardLog_added : added (rewardLog now user) = (user.get "add_score").toNum := by
  rw [added, rewardLog, addScoreLog]
  simp [Fields.get_ofList_cons, rewardRoomCard_get]

/-- And it is balanced. -/
theorem rewardLog_balanced : Balanced (rewardLog now user) := by
  rw [Balanced, rewardLog_added, rewardLog, addScoreLog]
  simp [Fields.get_ofList_cons, rewardRoomCard_get, sumOf]

/-- A pending field is a pending reward. -/
theorem isAdd_of_pending {f : String} (hf : f ∈ ["add_roomCardNum", "add_score", "add_redPackVal"])
    (h : pendingReward user f = true) : isAdd user = true := by
  simp only [List.mem_cons, List.not_mem_nil, or_false] at hf
  unfold isAdd
  rcases hf with rfl | rfl | rfl <;> simp [h]

/-- Rewards are logged. -/
theorem booked_addUserReward (hok : ∀ n, w.mysqlOk n = true) (huser : user.Encodable)
    (hkey : userKey (user.get "unionid") = k) (hst : storableKey k)
    (hscore : (user.get "score").toNum = scoreAt k s) :
    Booked k 0 s ((addUserReward now user).run (exec w) s).2 := by
  have hlog := addUserReward_opScoreLog s now user hok
  have hrecord := addUserReward_record w s now user
  cases hadd : isAdd user with
  | false =>
      have hpending : pendingReward user "add_score" = false := by
        rw [← Bool.not_eq_true]
        intro h
        rw [isAdd_of_pending (by decide) h] at hadd
        cases hadd
      refine (Kept.of_same (fun k' => ?_) ?_).booked
      · rw [hrecord, if_neg fun h => Bool.false_ne_true (hadd.symm.trans h.1)]
      · rw [hlog, hpending, if_neg Bool.false_ne_true, List.append_nil]
  | true =>
      have hself : ((addUserReward now user).run (exec w) s).2.record k =
          some ⟨rewarded user, rewarded_encodable huser⟩ := by
        rw [hrecord, if_pos ⟨hadd, hkey.symm, hst⟩,
          Fields.jsonEncode_of_encodable (rewarded_encodable huser)]
      refine ⟨fun k' hk' => ?_, fun _ => by rw [hself]; rfl, _, hlog, ?_, ?_⟩
      · rw [hrecord, if_neg fun h => hk' (h.2.1.trans hkey)]
      · intro row hrow
        split at hrow
        · rw [List.mem_singleton.mp hrow]
          refine ⟨?_, rewardLog_balanced⟩
          rw [rewardLog, addScoreLog, ← hkey]
          simp [Fields.get_ofList_cons, rewardRoomCard_get]
        · cases hrow
      · rw [scoreAt, Store.fieldsAt_of_record hself, rewarded_score, ← hscore]
        split
        · simp [rewardLog_added, sumOf]
        · simp

/-- An entry that depends on a condition. -/
theorem booked_logWhen (hok : ∀ n, w.mysqlOk n = true) {b : Bool} {row : Fields}
    (hkey : userKey (row.get "unionid") = k) (hrow : Balanced row) :
    Booked k (if b then -added row else 0) s
      (Prog.run (exec w) (Handler.when b do let _ ← insertAddScoreLogMysql row) s).2 := by
  cases b with
  | false => exact (Kept.refl s).booked
  | true =>
      rw [Handler.when, if_pos rfl, if_pos rfl, Prog.run_bind]
      exact booked_log hok hkey hrow

end Methods

/-! ## Login -/

section Login

variable {k : String} {s : Store} {w : World} {now : ℕ} {user : Fields} {u ip : Value}
  {msg : JsonObject} {vs : List String}

/-- The roll-over books nothing. -/
theorem kept_clearYesterdayData (w : World) (s : Store) (now : ℕ) (user : Fields) (hu : userKey u = k) (henc : Fields.encodable u = true) :
    Kept k s ((clearYesterdayData now u user).run (exec w) s).2 := by
  unfold clearYesterdayData
  split
  · rw [Prog.run_bind]
    refine kept_updateUser (rolloverData_encodable now user henc) ?_ ?_
    · rw [rolloverData_unionid, hu]
    · simp [rolloverData, Fields.mem_ofList]
  · exact Kept.refl s

/-- The roll-over changes three fields of the copy. -/
theorem clearYesterdayData_copy {f : String}
    (hf : f ∉ ["loginDayCount", "todayRedPackCount", "todayRechargeVal"]) :
    ((clearYesterdayData now u user).run (exec w) s).1.get f = user.get f := by
  have hget : (copyAfterRollover now user).get f = user.get f :=
    copyAfterRollover_get_of_notMem hf
  refine Eq.trans ?_ hget
  unfold clearYesterdayData copyAfterRollover
  split
  · rw [Prog.run_bind]
    rfl
  · rfl

/-- The copy after the roll-over can be encoded. -/
theorem clearYesterdayData_encodable (w : World) (s : Store) (now : ℕ) (u : Value)
    (huser : user.Encodable) :
    ((clearYesterdayData now u user).run (exec w) s).1.Encodable := by
  unfold clearYesterdayData
  split
  · rw [Prog.run_bind]
    exact rolledOver_encodable huser
  · exact huser

/-- The roll-over keeps the marks of the day. -/
theorem clearYesterdayData_login (w : World) (s : Store) (now : ℕ) (u : Value) (user : Fields)
    (date : String) :
    ((clearYesterdayData now u user).run (exec w) s).2.hash (.login date) =
      s.hash (.login date) := by
  unfold clearYesterdayData
  split
  · rw [Prog.run_bind]
    exact updateUser_hash_of_ne w s _ (by simp) (by simp)
  · rfl

/-- The roll-over keeps the log. -/
theorem clearYesterdayData_log :
    ((clearYesterdayData now u user).run (exec w) s).2.table .opScoreLog =
      s.table .opScoreLog := by
  unfold clearYesterdayData
  split
  · rw [Prog.run_bind]
    exact updateUser_table_of_ne w s _ (by decide)
  · rfl

/-- Whether the top-up is due depends on the score and the mark. -/
theorem topUpDue_congr {s' : Store} {user' : Fields} (hscore : user'.get "score" = user.get "score")
    (hhash : ∀ date, s'.hash (.login date) = s.hash (.login date)) :
    topUpDue s' now u user' = topUpDue s now u user := by
  rw [topUpDue, hhash, Login.scoreLow, hscore, ← Login.scoreLow, ← topUpDue]

/-- The top-up block when it is not due. -/
theorem kept_dailyTopUp (hdue : topUpDue s now u user = false) :
    Kept k s ((Login.dailyTopUp now u user).run (exec w) s).2 ∧
      ((Login.dailyTopUp now u user).run (exec w) s).1.1 = user := by
  have hmark : Kept k s ((isAddCoinToday now u).run (exec w) s).2 :=
    Kept.of_same (isAddCoinToday_record w s now u)
      ((isAddCoinToday_writes now u).run_table (by simp) s)
  have hresult := isAddCoinToday_result w s now u
  unfold Login.dailyTopUp
  rw [Prog.run_bind]
  split
  · exact ⟨hmark, rfl⟩
  · rename_i hnot
    rw [hresult, Bool.not_eq_true] at hnot
    rw [topUpDue, hnot, Bool.not_false, Bool.true_and] at hdue
    rw [hdue, if_neg Bool.false_ne_true]
    exact ⟨hmark, rfl⟩

/-- The second part of a login, with a copy of the stored record. -/
theorem booked_admitted (hok : ∀ n, w.mysqlOk n = true) (huser : user.Encodable)
    (hkey : userKey (user.get "unionid") = k) (hscore : (user.get "score").toNum = scoreAt k s)
    (hu : userKey (msg.get "unionid") = k) (hfound : (s.record k).isSome = true)
    (hdue : topUpDue s now (msg.get "unionid") user = false) :
    Booked k 0 s ((Login.admitted now msg user).run (exec w) s).2 := by
  have hclear := kept_clearYesterdayData w s now user hu
    (msg.encodable_get "unionid")
  have hcopy : ∀ f ∈ ["unionid", "score"],
      ((clearYesterdayData now (msg.get "unionid") user).run (exec w) s).1.get f = user.get f :=
    fun f hf => clearYesterdayData_copy (by revert f; decide)
  have henc := clearYesterdayData_encodable w s now (msg.get "unionid") huser
  have hlogin := clearYesterdayData_login w s now (msg.get "unionid") user
  unfold Login.admitted
  simp only [Prog.run_bind, Prog.pure_eq_ret, Prog.run_ret]
  generalize (clearYesterdayData now (msg.get "unionid") user).run (exec w) s = r1 at *
  obtain ⟨htop, hsame⟩ := kept_dailyTopUp (k := k) (w := w)
    ((topUpDue_congr (hcopy "score" (by decide)) hlogin).trans hdue)
  rw [hsame]
  generalize ((Login.dailyTopUp now (msg.get "unionid") r1.1).run (exec w) r1.2).2 = s2 at *
  have hkept := hclear.trans htop
  refine hkept.then (booked_addUserReward hok (henc.setDefault rfl) ?_ ?_ ?_)
  · rw [Fields.get_setDefault, if_neg (by decide), hcopy _ (by decide), hkey]
  · obtain ⟨o, ho⟩ := Option.isSome_iff_exists.mp hfound
    exact Store.storable_of_record ho
  · rw [Fields.get_setDefault, if_neg (by decide), hcopy _ (by decide), hscore, hkept.score]

/-- What the login goes on with after the first part. -/
theorem booked_reenter (hs : Sound .users vs s) (hok : ∀ n, w.mysqlOk n = true)
    (hfound : (s.record (userKey (msg.get "unionid"))).isSome = true)
    (hdue : ∀ o, s.record (userKey (msg.get "unionid")) = some o →
      Login.switchedOff o.fields = false → topUpDue s now (msg.get "unionid") o.fields = false) :
    Booked (userKey (msg.get "unionid")) 0 s (Prog.run (exec w) (do
      let user ← getUser (msg.get "unionid")
      if user.isEmpty || Login.switchedOff user then sendErrno 1003
      else Login.admitted now msg user) s).2 := by
  obtain ⟨o, ho⟩ := Option.isSome_iff_exists.mp hfound
  rw [Prog.run_bind, hs.getUser_run]
  dsimp only
  split
  · exact (Kept.refl s).booked
  · rename_i hin
    rw [Store.fieldsAt_of_record ho, Bool.not_eq_true, Bool.or_eq_false_iff] at hin
    rw [Store.fieldsAt_of_record ho]
    refine booked_admitted hok o.encodable (hs.keyed _ o ho) ?_ rfl hfound (hdue o ho hin.2)
    rw [scoreAt, Store.fieldsAt_of_record ho]

/-- What a login must keep to: the top-up, which is not logged, is not due. -/
def LoginLogged (s : Store) (now : ℕ) (msg : JsonObject) : Prop :=
  match s.record (userKey (msg.get "unionid")) with
  | some o => Login.admits msg o.fields = true → topUpDue s now (msg.get "unionid") o.fields = false
  | none => True

instance (s : Store) (now : ℕ) (msg : JsonObject) : Decidable (LoginLogged s now msg) :=
  decidable_of_iff (∀ o ∈ s.record (userKey (msg.get "unionid")), Login.admits msg o.fields = true →
      topUpDue s now (msg.get "unionid") o.fields = false) <| by
    unfold LoginLogged
    cases s.record (userKey (msg.get "unionid")) <;> simp

/-- The login of a registered user. -/
theorem booked_login (hs : Sound .users vs s) (hok : ∀ n, w.mysqlOk n = true) {o : JsonObject}
    (ho : s.record (userKey (msg.get "unionid")) = some o) (hproper : LoginProper s ip msg)
    (hlogged : LoginLogged s now msg) :
    Booked (userKey (msg.get "unionid")) 0 s ((Login.login now ip msg).run (exec w) s).2 := by
  unfold LoginProper LoginLogged at *
  rw [ho] at hproper hlogged
  have hfound : (s.record (userKey (msg.get "unionid"))).isSome = true :=
    Option.isSome_of_eq_some ho
  -- a stored record has fields, so `getUser` finds it and the login re-enters
  have hempty : (s.fieldsAt (userKey (msg.get "unionid"))).isEmpty = false := by
    rw [hs.isEmpty_fieldsAt, ho]
    rfl
  unfold Login.login
  rw [Prog.run_bind, hs.getUser_run]
  dsimp only
  rw [Prog.run_bind, enter_run hempty, Store.fieldsAt_of_record ho]
  cases hweixin : Login.isType msg "weixin" with
  | true =>
      have henc := Fields.encodes_iff.mp (hproper hweixin)
      -- the weixin data have no score and no userno: what is booked is kept
      have hkept : Kept (userKey (msg.get "unionid")) s
          ((updateUser (Login.userData ip msg)).run (exec w) s).2 := by
        refine kept_updateUser henc (by rw [Login.userData_unionid]) ?_
        rw [Login.mem_userData]
        decide
      have hs1 : Sound .users vs ((updateUser (Login.userData ip msg)).run (exec w) s).2 := by
        refine hs.updateUser nofun henc userno_notMem_userData fun _ => ?_
        rw [Login.userData_unionid]
        exact fun _ => hfound
      rw [if_pos rfl]
      refine hkept.then (booked_reenter hs1 hok (hkept.found hfound) fun o1 ho1 hoff => ?_)
      -- the record that the login reads again differs in the weixin fields only
      have hget : ∀ f ∈ ["loginSwitch", "score"], o1.fields.get f = o.fields.get f := by
        intro f hf
        have hnot : f ∉ Login.userData ip msg := by
          rw [Login.mem_userData]
          revert f
          decide
        rw [updateUser_record, hs.getUser_run] at ho1
        split at ho1
        · rw [Fields.fields_of_jsonEncode ho1, Fields.get_merge_of_notMem hnot,
            Login.userData_unionid, Store.fieldsAt_of_record ho]
        · rw [ho] at ho1
          cases ho1
          rfl
      rw [topUpDue_congr (hget "score" (by decide)) fun date =>
        updateUser_hash_of_ne w s _ (by simp) (by simp)]
      rw [Login.switchedOff_congr (hget "loginSwitch" (by decide))] at hoff
      exact hlogged (Login.admits_iff.mpr ⟨if_pos hweixin, hoff⟩)
  | false =>
      rw [if_neg Bool.false_ne_true]
      cases hrefusal : Login.entryRefusal msg o.fields with
      | some errno => exact (Kept.refl s).booked
      | none =>
          refine booked_reenter hs hok hfound fun o' ho' hoff => ?_
          rw [ho] at ho'
          cases ho'
          exact hlogged (Login.admits_iff.mpr ⟨hrefusal, hoff⟩)

/-- A registered user has the initial score. -/
theorem registered_score :
    (registered now user s).get "score" = .num (initialScore (user.get "unionid")) := by
  rw [registered_get_of_ne s now (by decide), newUser_get, if_pos (by simp [registrationFields])]
  simp [registrationFields, Fields.get_ofList_cons]

/-- A new user has the score of the registration, and no entries. -/
theorem Ledger.addUser (hl : Ledger s) (now : ℕ) (hnone : s.record (userKey (user.get "unionid")) = none)
    (henc : user.Encodable) : Ledger ((addUser now user).run (exec w) s).2 := by
  have hrecord := addUser_record w s now user
  have hlog : ((GameData.addUser now user).run (exec w) s).2.table .opScoreLog =
      s.table .opScoreLog := addUser_table_of_ne w s now user (by decide)
  refine ⟨?_, ?_, ?_⟩
  · rw [hlog]
    exact hl.entry
  · intro k o ho
    rw [hlog]
    rw [hrecord] at ho
    split at ho
    · rename_i hk
      have hrows : loggedAt k (s.table .opScoreLog) = 0 := by
        refine loggedAt_of_ne fun row hrow hkey => ?_
        have hsome := hl.owned row hrow
        rw [hkey, hk.1, hnone] at hsome
        cases hsome
      rw [hrows, JsonObject.get, JsonObject.get, Fields.fields_of_jsonEncode ho,
        registered_unionid, registered_score, Value.toNum_num, add_zero]
    · exact hl.score k o ho
  · rw [hlog]
    intro row hrow
    rw [hrecord]
    split
    · rw [Fields.jsonEncode_of_encodable (registered_encodable s now henc)]
      rfl
    · exact hl.owned row hrow

/-- A user who has just been registered has no top-up due. -/
theorem topUpDue_of_addUser {o : JsonObject} {t : Value} (hnone : s.record k = none)
    (ho : ((addUser now user).run (exec w) s).2.record k = some o) :
    topUpDue ((addUser now user).run (exec w) s).2 now t o.fields = false := by
  have hlow : Login.scoreLow o.fields = false := by
    rw [addUser_record] at ho
    split at ho
    · rw [Fields.fields_of_jsonEncode ho, Login.scoreLow, registered_score, initialScore]
      cases isRaceAi (user.get "unionid") <;> decide +kernel
    · rw [hnone] at ho
      cases ho
  rw [topUpDue, hlow, Bool.and_false]

/-- `login.php` keeps the ledger. -/
theorem ledger_login (hs : Sound .users vs s) (hl : Ledger s) (hok : ∀ n, w.mysqlOk n = true)
    (hproper : LoginProper s ip msg) (hlogged : LoginLogged s now msg) :
    Ledger ((Login.login now ip msg).run (exec w) s).2 := by
  have hkeyed := (sound_login (w := w) now hs nofun hproper nofun).keyed
  cases hrecord : s.record (userKey (msg.get "unionid")) with
  | some o =>
      exact hl.booked hs.keyed hkeyed (Option.isSome_of_eq_some hrecord)
        (booked_login hs hok hrecord hproper hlogged)
  | none =>
      unfold LoginProper at hproper
      rw [hrecord] at hproper
      have hempty : (s.fieldsAt (userKey (msg.get "unionid"))).isEmpty = true := by
        rw [hs.isEmpty_fieldsAt, hrecord]
        rfl
      revert hkeyed
      unfold Login.login
      rw [Prog.run_bind, hs.getUser_run]
      dsimp only
      rw [Prog.run_bind]
      unfold Login.enter
      rw [if_pos hempty]
      cases hin : Login.isType msg "weixin" || Login.isType msg "my_reg" with
      | false => exact fun _ => hl
      | true =>
          obtain ⟨henc, hnumber⟩ := hproper hin
          replace henc := Fields.encodes_iff.mp henc
          have hnone : s.record (userKey ((Login.userData ip msg).get "unionid")) = none := by
            rw [Login.userData_unionid, hrecord]
          have hs1 := hs.addUser (w := w) nofun now hnone henc hnumber nofun
          have hl1 := hl.addUser (w := w) now hnone henc
          rw [if_pos rfl, Prog.run_bind]
          intro hkeyed
          cases hfound : ((addUser now (Login.userData ip msg)).run (exec w) s).2.record
              (userKey (msg.get "unionid")) with
          | some o =>
              refine hl1.booked hs1.keyed hkeyed (Option.isSome_of_eq_some hfound)
                (booked_reenter hs1 hok (Option.isSome_of_eq_some hfound) fun o' ho' _ => ?_)
              exact topUpDue_of_addUser hrecord ho'
          | none =>
              -- the key was too long to be stored
              have hl2 : Ledger (Prog.run (exec w) (do
                  let user ← getUser (msg.get "unionid")
                  if user.isEmpty || Login.switchedOff user then sendErrno 1003
                  else Login.admitted now msg user)
                  ((addUser now (Login.userData ip msg)).run (exec w) s).2).2 := by
                rw [Prog.run_bind, hs1.getUser_run]
                dsimp only
                rw [hs1.isEmpty_fieldsAt, hfound, Option.isNone_none, Bool.true_or, if_pos rfl]
                exact hl1
              exact hl2

end Login

/-! ## The other requests -/

section Requests

variable {k : String} {s : Store} {w : World} {now : ℕ} {user : Fields} {msg : JsonObject}
  {vs : List String}

/-- The defaults of a recharge set two fields. -/
theorem withRechargeDefaults_get {f : String} (hdate : f ≠ "lastRechargeDate")
    (htoday : f ≠ "todayRechargeVal") :
    (AddCoin.withRechargeDefaults user).get f = user.get f := by
  rw [AddCoin.withRechargeDefaults, Fields.get_setDefault, if_neg htoday, Fields.get_setDefault,
    if_neg hdate]

/-- An entry that is followed by the write of the score. -/
theorem Booked.write {q : ℚ} {row : Fields} {s1 s2 : Store} (hlog : Booked k (-added row) s s1)
    (hsame : scoreAt k s1 = scoreAt k s) (hadded : added row = q - scoreAt k s)
    (hwrite : Booked k (q - scoreAt k s1) s1 s2) : Booked k 0 s s2 := by
  have hbooked := hlog.trans hwrite
  rwa [hsame, hadded, neg_add_cancel] at hbooked

/-- An entry in the log keeps the scores. -/
theorem scoreAt_log (row : Fields) :
    scoreAt k ((insertAddScoreLogMysql row).run (exec w) s).2 = scoreAt k s := by
  rw [scoreAt, Store.fieldsAt_congr (Store.record_congr
    ((insertAddScoreLogMysql_writes row).run_hash (by simp) s)), scoreAt]

/-- A recharge is logged. -/
theorem booked_credit (hok : ∀ n, w.mysqlOk n = true) (hset : msg.isset "unionid" = true)
    (hu : userKey (msg.get "unionid") = k) (hkey : userKey (user.get "unionid") = k)
    (hfound : (s.record k).isSome = true) (hscore : (user.get "score").toNum = scoreAt k s) :
    Booked k 0 s ((AddCoin.credit now msg user).run (exec w) s).2 := by
  unfold AddCoin.credit
  simp only [Prog.run_bind, Prog.pure_eq_ret, Prog.run_ret]
  have hpool : Kept k s _ := Kept.of_sameUsers ((Handler.quiet_addRewardPool
    (.num (AddCoin.chargeMoney (msg.get "addCoin") * (5 / 100)))).sameUsers w s)
  generalize ((addRewardPool (.num (AddCoin.chargeMoney (msg.get "addCoin") * (5 / 100)))).run
    (exec w) s).2 = s1 at *
  generalize AddCoin.creditedCoin (AddCoin.withRechargeDefaults user)
    (AddCoin.packCoin (msg.get "addCoin")) = coin
  have hold : ((AddCoin.withRechargeDefaults user).get "score").toNum = scoreAt k s1 := by
    rw [withRechargeDefaults_get (by decide) (by decide), hscore, hpool.score]
  have hlog : Booked k (-added (AddCoin.scoreLog now (AddCoin.withRechargeDefaults user) coin)) s1
      ((insertAddScoreLogMysql (AddCoin.scoreLog now (AddCoin.withRechargeDefaults user) coin)).run
        (exec w) s1).2 := by
    refine booked_log hok ?_ ?_
    · simp [AddCoin.scoreLog, addScoreLog, Fields.get_ofList_cons, withRechargeDefaults_get, hkey]
    · simp [Balanced, added, AddCoin.scoreLog, addScoreLog, Fields.get_ofList_cons]
  have hdata : (AddCoin.updateData now (msg.get "unionid") (AddCoin.withRechargeDefaults user) coin
      (AddCoin.chargeMoney (msg.get "addCoin"))).Encodable := by
    have henc := msg.encodable_get "unionid"
    exact Fields.encodable_ofList (by simpa [Fields.encodable] using henc)
  have hunionid : (AddCoin.updateData now (msg.get "unionid") (AddCoin.withRechargeDefaults user)
      coin (AddCoin.chargeMoney (msg.get "addCoin"))).get "unionid" = msg.get "unionid" := by
    simp [AddCoin.updateData, Fields.get_ofList_cons]
  have hwrite := booked_updateUser (w := w) (k := k) hdata
    (Fields.isset_eq_true.mpr (hunionid ▸ JsonObject.isset_eq_true.mp hset))
    (by rw [hunionid, hu]) (hlog.found (hpool.found hfound))
  rw [Fields.get_merge_of_mem (by simp [AddCoin.updateData, Fields.mem_ofList])] at hwrite
  have hbooked := hlog.write (scoreAt_log _) ?_ hwrite
  · have hcount : Handler.Quiet (addChargeCount
        (.num (AddCoin.chargeMoney (msg.get "addCoin")))) := Handler.quiet_addToCounter _ _
    have hsite : Handler.Quiet (Helper.rechargeRecord (msg.get "unionid")
        (.str ("coin_" ++ coin.text)) (.str (Calendar.dateTime now))
        (.num (AddCoin.chargeMoney (msg.get "addCoin") / 100))
        ((AddCoin.withRechargeDefaults user).get "channel")) := Handler.quiet_sitePage _ _
    refine (hpool.then hbooked).kept (Kept.trans (Kept.of_sameUsers (hcount.sameUsers w _))
      (Kept.trans (Kept.of_sameUsers (hsite.sameUsers w _)) ?_))
    exact Kept.of_sameUsers ((Handler.quiet_addRechargeRecordMysql _).sameUsers w _)
  · simp [added, AddCoin.scoreLog, AddCoin.updateData, addScoreLog, Fields.get_ofList_cons, hold]

/-- `addCoin.php` keeps the ledger. -/
theorem ledger_addCoin (hs : Sound .users vs s) (hl : Ledger s) (hok : ∀ n, w.mysqlOk n = true)
    (hset : msg.isset "unionid" = true) :
    Ledger ((AddCoin.addCoin now msg).run (exec w) s).2 := by
  have hrows : View.users = .rows → ∀ n, w.mysqlOk n = true := nofun
  have hkeyed := (sound_addCoin now msg hrows s hs).keyed
  revert hkeyed
  unfold AddCoin.addCoin
  cases AddCoin.channel (msg.get "platform") with
  | none => exact fun _ => hl
  | some ch =>
      dsimp only
      rw [Prog.run_bind]
      have hwrites := verify_writes ch (msg.get "receipt_data")
        (AddCoin.chargeMoney (msg.get "addCoin"))
      have hs1 := hs.outside (w := w) (outside_verify ch (msg.get "receipt_data")
        (AddCoin.chargeMoney (msg.get "addCoin")))
      have hl1 : Ledger ((AddCoin.verify ch (msg.get "receipt_data")
          (AddCoin.chargeMoney (msg.get "addCoin"))).run (exec w) s).2 :=
        hl.congr (fun k => Store.record_congr (hwrites.run_hash (by simp) s))
          (hwrites.run_table (by simp) s)
      generalize (AddCoin.verify ch (msg.get "receipt_data")
        (AddCoin.chargeMoney (msg.get "addCoin"))).run (exec w) s = r1 at *
      unfold AddCoin.settle
      rw [Prog.run_bind, hs1.getUser_run]
      dsimp only
      split
      · exact fun _ => hl1
      · rename_i hin
        obtain ⟨o, ho⟩ := hs1.registered (Bool.not_eq_true _ ▸ hin)
        rw [Store.fieldsAt_of_record ho]
        split
        · intro hkeyed
          refine hl1.booked hs1.keyed hkeyed (Option.isSome_of_eq_some ho)
            (booked_credit hok hset rfl (hs1.keyed _ o ho) (Option.isSome_of_eq_some ho) ?_)
          rw [scoreAt, Store.fieldsAt_of_record ho]
        · intro _
          rw [Prog.run_bind]
          have hsame := (Handler.quiet_addRechargeRecordMysql (Fields.ofList
            (AddCoin.rechargeRecord o.fields (AddCoin.chargeMoney (msg.get "addCoin")) 0 ++
              [("time", .str (Calendar.dateTime now))]))).sameUsers w r1.2
          exact hl1.congr hsame.record hsame.opScoreLog

/-- `getUserData.php` keeps the ledger. -/
theorem ledger_getUserData (hs : Sound .users vs s) (hl : Ledger s)
    (hok : ∀ n, w.mysqlOk n = true) :
    Ledger ((Players.getUserData now msg).run (exec w) s).2 := by
  have hkeyed := (sound_getUserData (w := w) now msg hs nofun nofun).keyed
  revert hkeyed
  unfold Players.getUserData
  rw [Prog.run_bind, hs.getUser_run]
  dsimp only
  split
  · exact fun _ => hl
  · rename_i hin
    obtain ⟨o, ho⟩ := hs.registered (Bool.not_eq_true _ ▸ hin)
    rw [Store.fieldsAt_of_record ho, Prog.run_bind]
    intro hkeyed
    refine hl.booked hs.keyed hkeyed (Option.isSome_of_eq_some ho)
      (booked_addUserReward hok (o.encodable.setDefault rfl) ?_ (Store.storable_of_record ho) ?_)
    · rw [Fields.get_setDefault, if_neg (by decide)]
      exact hs.keyed _ o ho
    · rw [Fields.get_setDefault, if_neg (by decide), scoreAt, Store.fieldsAt_of_record ho]

end Requests

/-! ## The game server -/

section GameServer

open GameServer

variable {k : String} {s : Store} {w : World} {now : ℕ} {user : Fields} {vs : List String}

/-- What a command must keep to: its user has a record if it writes, and coins that come with a red
packet are not taken away (only a gain is logged). -/
def GatewayLogged (s : Store) (now : ℕ) (msg : GatewayMsg) : Prop :=
  (msg.fields.get "unionid").toBool = true →
    gatewayWrites now msg (s.fieldsAt (userKey (msg.fields.get "unionid"))) = true →
      (s.record (userKey (msg.fields.get "unionid"))).isSome = true ∧
        (isCmd msg "cmd_addRedpack" = true → Value.looseLt (.num 0) (coinVal msg) = false →
          (coinVal msg).toNum = 0)

instance (s : Store) (now : ℕ) (msg : GatewayMsg) : Decidable (GatewayLogged s now msg) := by
  unfold GatewayLogged; infer_instance

/-- A `unionid` that counts as true is set. -/
theorem isset_of_toBool {data : Fields} {u : Value} (h : data.get "unionid" = u)
    (htrue : u.toBool = true) : data.isset "unionid" = true := by
  rw [Fields.isset_eq_true, h]
  rintro rfl
  cases htrue

/-- The write of a score that is followed by its entry. -/
theorem Booked.log {q : ℚ} {row : Fields} {b : Bool} {s1 s2 : Store}
    (hwrite : Booked k (q - scoreAt k s) s s1)
    (hlog : Booked k (if b then -added row else 0) s1 s2)
    (hadded : (if b then added row else 0) = q - scoreAt k s) : Booked k 0 s s2 := by
  have hbooked := hwrite.trans hlog
  rw [← hadded] at hbooked
  cases b with
  | false => simpa using hbooked
  | true => simpa using hbooked

/-- A red packet books its coins. -/
theorem booked_addRedpack (hok : ∀ n, w.mysqlOk n = true) {msg : GatewayMsg}
    (htrue : (msg.fields.get "unionid").toBool = true) (huser : user.Encodable)
    (hu : userKey (msg.fields.get "unionid") = k) (hkey : userKey (user.get "unionid") = k)
    (hst : storableKey k) (hscore : (user.get "score").toNum = scoreAt k s)
    (hcoin : Value.looseLt (.num 0) (coinVal msg) = false → (coinVal msg).toNum = 0) :
    Booked k 0 s ((addRedpack now msg user).run (exec w) s).2 := by
  obtain ⟨s1, hsame, hrun⟩ := addRedpack_run w s now msg user
  have hkept : Kept k s s1 := Kept.of_sameUsers hsame
  rw [hrun]
  split
  · have hget : ∀ f, f ≠ "totalGetRedPackVal" →
        (user.setDefault "totalGetRedPackVal" (.num 0)).get f = user.get f := by
      intro f hf
      rw [Fields.get_setDefault, if_neg hf]
    have hwrite := booked_updateUser2 (w := w) (s := s1) (k := k) (redpackData_encodable msg
      (user.setDefault "totalGetRedPackVal" (.num 0)))
      (huser.setDefault (k := "totalGetRedPackVal") (v := .num 0) rfl)
      (isset_of_toBool (redpackData_unionid msg _) htrue) (by rw [redpackData_unionid, hu]) hst
    rw [Fields.get_merge_of_mem (by simp [redpackData, Fields.mem_ofList])] at hwrite
    unfold storeRedpack
    rw [Prog.run_bind, Prog.run_bind]
    refine hkept.then (hwrite.log (booked_logWhen hok ?_ ?_) ?_)
    · simp [addScoreLog, Fields.get_ofList_cons, hget, hkey]
    · simp [Balanced, added, addScoreLog, redpackData, Fields.get_ofList_cons]
    · rw [hkept.score, ← hscore]
      cases hpos : Value.looseLt (.num 0) (coinVal msg) with
      | true =>
          simp [added, addScoreLog, redpackData, Fields.get_ofList_cons, hget]
      | false =>
          simp [redpackData, Fields.get_ofList_cons, hget, hcoin hpos]
  · exact hkept.booked

/-- A game result books its coins. -/
theorem booked_submitGameResult (hok : ∀ n, w.mysqlOk n = true) {msg : GatewayMsg}
    (htrue : (msg.fields.get "unionid").toBool = true) (huser : user.Encodable)
    (hu : userKey (msg.fields.get "unionid") = k) (hkey : userKey (user.get "unionid") = k)
    (hst : storableKey k) (hscore : (user.get "score").toNum = scoreAt k s) :
    Booked k 0 s ((submitGameResult now msg user).run (exec w) s).2 := by
  have hquiet : Handler.Quiet (Handler.when (!msg.roomResult.history.isEmpty)
      (insertRoomResult now (msg.fields.get "unionid") msg.roomResult)) :=
    Handler.Writes.when (Handler.quiet_pushBounded _ _ _)
  have hkept : Kept k s _ := Kept.of_sameUsers (hquiet.sameUsers w s)
  unfold submitGameResult
  rw [Prog.run_bind, Prog.run_bind]
  generalize (Prog.run (exec w) (Handler.when (!msg.roomResult.history.isEmpty)
    (insertRoomResult now (msg.fields.get "unionid") msg.roomResult)) s).2 = s1 at *
  unfold Handler.when
  split
  · have hunionid : (gameResultData msg user).get "unionid" = msg.fields.get "unionid" := by
      simp [gameResultData, Fields.get_ofList_cons]
    have hdata : (gameResultData msg user).Encodable := by
      have henc := msg.fields.encodable_get "unionid"
      exact Fields.encodable_ofList (by simpa [Fields.encodable] using henc)
    have hwrite := booked_updateUser2 (w := w) (s := s1) (k := k) hdata huser
      (isset_of_toBool hunionid htrue) (by rw [hunionid, hu]) hst
    rw [Fields.get_merge_of_mem (by simp [gameResultData, Fields.mem_ofList])] at hwrite
    rw [Prog.run_bind, Prog.run_bind]
    refine hkept.then (hwrite.log (b := true) (booked_log hok ?_ ?_) ?_)
    · simp [addScoreLog, Fields.get_ofList_cons, hkey]
    · simp [Balanced, added, addScoreLog, gameResultData, Fields.get_ofList_cons]
    · rw [hkept.score, ← hscore]
      simp [added, addScoreLog, gameResultData, Fields.get_ofList_cons]
  · exact hkept.booked

/-- A command that writes nothing into the record of its user. -/
theorem sameUsers_of_not_gatewayWrites (hs : Sound .users vs s) {msg : GatewayMsg}
    (h : gatewayWrites now msg (s.fieldsAt (userKey (msg.fields.get "unionid"))) = false) :
    s.SameUsers ((serviceGateWay now msg).run (exec w) s).2 := by
  unfold gatewayWrites at h
  unfold serviceGateWay
  split
  · rw [Prog.run_bind, hs.getUser_run]
    dsimp only
    split at h
    · rename_i hcmd
      obtain ⟨s1, hsame, hrun⟩ := addRedpack_run w s now msg
        (s.fieldsAt (userKey (msg.fields.get "unionid")))
      rw [if_pos hcmd, hrun, h, if_neg Bool.false_ne_true]
      exact hsame
    · rename_i hred
      rw [if_neg hred]
      split at h
      · rename_i hgame
        have hquiet : Handler.Quiet (Handler.when (!msg.roomResult.history.isEmpty)
            (insertRoomResult now (msg.fields.get "unionid") msg.roomResult)) :=
          Handler.Writes.when (Handler.quiet_pushBounded _ _ _)
        rw [if_pos hgame, submitGameResult, Prog.run_bind, Prog.run_bind, h]
        exact hquiet.sameUsers w s
      · rename_i hgame
        rw [if_neg hgame, h, if_neg Bool.false_ne_true]
        exact Store.SameUsers.refl s
  · exact Store.SameUsers.refl s

/-- A command books its coins. -/
theorem booked_serviceGateWay (hs : Sound .users vs s) (hok : ∀ n, w.mysqlOk n = true)
    {msg : GatewayMsg} (hlogged : GatewayLogged s now msg)
    (hwrites : gatewayWrites now msg (s.fieldsAt (userKey (msg.fields.get "unionid"))) = true)
    {o : JsonObject} (ho : s.record (userKey (msg.fields.get "unionid")) = some o) :
    Booked (userKey (msg.fields.get "unionid")) 0 s
      ((serviceGateWay now msg).run (exec w) s).2 := by
  have hscore : (o.fields.get "score").toNum =
      scoreAt (userKey (msg.fields.get "unionid")) s := by
    rw [scoreAt, Store.fieldsAt_of_record ho]
  have hst := Store.storable_of_record ho
  unfold serviceGateWay
  split
  · rename_i htrue
    have hcoin := (hlogged htrue hwrites).2
    rw [Prog.run_bind, hs.getUser_run]
    dsimp only
    rw [Store.fieldsAt_of_record ho]
    split
    · rename_i hcmd
      exact booked_addRedpack hok htrue o.encodable rfl (hs.keyed _ o ho) hst hscore (hcoin hcmd)
    · split
      · exact booked_submitGameResult hok htrue o.encodable rfl (hs.keyed _ o ho) hst hscore
      · split
        · have hunionid : (costRoomCardData msg o.fields).get "unionid" =
              msg.fields.get "unionid" := by
            simp [costRoomCardData, Fields.get_ofList_cons]
          have hdata : (costRoomCardData msg o.fields).Encodable := by
            have henc := msg.fields.encodable_get "unionid"
            exact Fields.encodable_ofList (by simpa [Fields.encodable] using henc)
          have hwrite := booked_updateUser2 (w := w) (s := s) hdata o.encodable
            (isset_of_toBool hunionid htrue) (by rw [hunionid]) hst
          rw [Fields.get_merge_of_notMem (by simp [costRoomCardData, Fields.mem_ofList]), hscore,
            sub_self] at hwrite
          rw [costRoomCard, Prog.run_bind]
          exact hwrite
        · exact (Kept.refl s).booked
  · exact (Kept.refl s).booked

/-- `service_gateWay.php` keeps the ledger. -/
theorem ledger_serviceGateWay (hs : Sound .users vs s) (hl : Ledger s)
    (hok : ∀ n, w.mysqlOk n = true) {msg : GatewayMsg} (hproper : GatewayProper s now msg)
    (hlogged : GatewayLogged s now msg) : Ledger ((serviceGateWay now msg).run (exec w) s).2 := by
  have hkeyed := (sound_serviceGateWay (w := w) hs nofun hproper).keyed
  cases hwrites : gatewayWrites now msg (s.fieldsAt (userKey (msg.fields.get "unionid"))) with
  | false =>
      have hsame := sameUsers_of_not_gatewayWrites (w := w) hs hwrites
      exact hl.congr hsame.record hsame.opScoreLog
  | true =>
      cases htrue : (msg.fields.get "unionid").toBool with
      | false =>
          rw [serviceGateWay, htrue, if_neg Bool.false_ne_true]
          exact hl
      | true =>
          obtain ⟨o, ho⟩ := Option.isSome_iff_exists.mp (hlogged htrue hwrites).1
          exact hl.booked hs.keyed hkeyed (Option.isSome_of_eq_some ho)
            (booked_serviceGateWay hs hok hlogged hwrites ho)

/-- The coins that the game server reports: those of a red packet, or the difference to the score
it sends. -/
def reportedCoin (user userData : Fields) : ℚ :=
  if isRedPackTurn userData then (userData.get "coinVal").toNum
  else (userData.get "score").toNum - (user.get "score").toNum

/-- The coins of the room result, or two if these are over 16. -/
def roomCoin (user : Fields) (roomResult : Option RoomResult) : ℚ :=
  if 16 < gameAddCoin user roomResult then 2 else gameAddCoin user roomResult

/-- What an update must keep to: if it sends a score, then for a stored user, and with the coins of
the room result. -/
def UpdateLogged (s : Store) (now : ℕ) (msg : UpdateMsg) : Prop :=
  (msg.userData.get "unionid").toBool = true →
    refused now msg (s.fieldsAt (userKey (msg.userData.get "unionid"))) = false →
      "score" ∈ msg.userData.fields → msg.userData.isset "score" = true ∧
        (s.record (userKey (msg.userData.get "unionid"))).isSome = true ∧
        reportedCoin (s.fieldsAt (userKey (msg.userData.get "unionid"))) msg.userData.fields =
          roomCoin (s.fieldsAt (userKey (msg.userData.get "unionid"))) msg.roomResult

instance (s : Store) (now : ℕ) (msg : UpdateMsg) : Decidable (UpdateLogged s now msg) := by
  unfold UpdateLogged; infer_instance

/-- The checks do not change whether it is a red packet turn. -/
theorem isRedPackTurn_acceptedData {msg : UpdateMsg} :
    isRedPackTurn (acceptedData now msg user) = isRedPackTurn msg.userData.fields := by
  have hval : (acceptedData now msg user).isset "redPackVal" =
      msg.userData.fields.isset "redPackVal" := by
    unfold acceptedData cappedRedPack
    split
    · rename_i hset
      rw [Fields.isset, Fields.get_set_of_ne (by decide)]
      split
      · rw [Fields.get_set_self]
        exact hset.symm
      · rfl
    · rfl
  rw [isRedPackTurn, hval, Fields.isset, acceptedData_get_of_ne (by decide) (by decide)]
  rfl

/-- What is logged is what the game server reports. -/
theorem gameScoreLog_added {msg : UpdateMsg} :
    added (gameScoreLog now user (acceptedData now msg user)) =
      reportedCoin user msg.userData.fields := by
  have hlogged : added (gameScoreLog now user (acceptedData now msg user)) =
      (loggedScore user (acceptedData now msg user)).toNum - (user.get "score").toNum := by
    simp [added, gameScoreLog, addScoreLog, Fields.get_ofList_cons]
  rw [hlogged, loggedScore, reportedCoin, isRedPackTurn_acceptedData,
    acceptedData_get_of_ne (by decide) (by decide), acceptedData_get_of_ne (by decide) (by decide)]
  split
  · simp [JsonObject.get]
  · rfl

/-- The score that is stored: the old one, and the coins of the room. -/
theorem gameScore_eq {roomResult : Option RoomResult} :
    gameScore user (gameAddCoin user roomResult) =
      (user.get "score").toNum + roomCoin user roomResult := by
  rw [gameScore, roomCoin, add_sub_cancel_right]
  split
  · rfl
  · exact add_comm _ _

/-- An update books its coins. -/
theorem booked_store (hok : ∀ n, w.mysqlOk n = true) {msg : UpdateMsg}
    (htrue : (msg.userData.get "unionid").toBool = true) (huser : user.Encodable)
    (hu : userKey (msg.userData.get "unionid") = k) (hkey : userKey (user.get "unionid") = k)
    (hst : storableKey k) (hscore : (user.get "score").toNum = scoreAt k s)
    (hlogged : "score" ∈ msg.userData.fields → msg.userData.isset "score" = true ∧
      reportedCoin user msg.userData.fields = roomCoin user msg.roomResult) :
    Booked k 0 s ((store now msg user).run (exec w) s).2 := by
  have hset : (acceptedData now msg user).isset "score" = msg.userData.isset "score" := by
    rw [Fields.isset, acceptedData_get_of_ne (by decide) (by decide)]
    rfl
  have hwrite := fun s1 => booked_updateUser2 (w := w) (s := s1) (k := k)
    (storedData_encodable now msg user) huser
    (isset_of_toBool storedData_unionid htrue) (by rw [storedData_unionid, hu]) hst
  unfold store
  rw [Prog.run_bind, Prog.run_bind, hset]
  cases hsent : msg.userData.isset "score" with
  | true =>
      have hmem : "score" ∈ msg.userData.fields :=
        Fields.mem_of_get_ne_null (JsonObject.isset_eq_true.mp hsent)
      have hstored : ((user.merge (storedData now msg user)).get "score").toNum =
          (user.get "score").toNum + roomCoin user msg.roomResult := by
        rw [Fields.get_merge_of_mem (mem_storedData hmem), storedData, hset, hsent, if_pos rfl,
          Fields.get_set_self, gameScore_eq]
        rfl
      rw [Handler.when, if_pos rfl, Prog.run_bind]
      refine Booked.write (booked_log hok ?_ ?_) (scoreAt_log _) ?_ (hwrite _)
      · simp [gameScoreLog, addScoreLog, Fields.get_ofList_cons, hkey]
      · simp [Balanced, added, gameScoreLog, addScoreLog, Fields.get_ofList_cons]
      · rw [gameScoreLog_added, (hlogged hmem).2, hstored, hscore, add_sub_cancel_left]
  | false =>
      have hnot : "score" ∉ storedData now msg user := by
        rw [storedData, hset, hsent, if_neg Bool.false_ne_true]
        intro h
        have hmem := (mem_of_mem_acceptedData h).resolve_right (by decide)
        rw [(hlogged hmem).1] at hsent
        cases hsent
      have hsame := hwrite s
      rw [Fields.get_merge_of_notMem hnot, hscore, sub_self] at hsame
      exact hsame

/-- The roll-over does not change whether an update is refused. -/
theorem refused_clearYesterdayData (w : World) (s : Store) (now : ℕ) (msg : UpdateMsg) (u : Value)
    (user : Fields) :
    refused now msg ((clearYesterdayData now u user).run (exec w) s).1 = refused now msg user := by
  unfold refused coolDownOver
  rw [clearYesterdayData_copy (by decide)]

/-- An update of a stored user. -/
theorem booked_serviceUpdateUser (hs : Sound .users vs s) (hok : ∀ n, w.mysqlOk n = true)
    {msg : UpdateMsg} (hlogged : UpdateLogged s now msg) {o : JsonObject}
    (ho : s.record (userKey (msg.userData.get "unionid")) = some o) :
    Booked (userKey (msg.userData.get "unionid")) 0 s
      ((serviceUpdateUser now msg).run (exec w) s).2 := by
  unfold serviceUpdateUser
  split
  · rename_i htrue
    have hreport := hlogged htrue
    rw [Store.fieldsAt_of_record ho] at hreport
    rw [Prog.run_bind, hs.getUser_run]
    dsimp only
    rw [Prog.run_bind, rewardIntroducer_run, Prog.run_bind, Store.fieldsAt_of_record ho]
    have hclear := kept_clearYesterdayData w s now o.fields rfl
      (msg.userData.encodable_get "unionid")
    have hrefused := refused_clearYesterdayData w s now msg (msg.userData.get "unionid") o.fields
    have hcopy : ∀ f ∈ ["unionid", "score", "nickname"],
        ((clearYesterdayData now (msg.userData.get "unionid") o.fields).run (exec w) s).1.get f =
          o.fields.get f :=
      fun f hf => clearYesterdayData_copy (by revert f; decide)
    have henc := clearYesterdayData_encodable w s now (msg.userData.get "unionid") o.encodable
    dsimp only
    generalize (clearYesterdayData now (msg.userData.get "unionid") o.fields).run (exec w) s = r1
      at *
    obtain ⟨s1, hsame, hrun⟩ := update_run w r1.2 now msg r1.1
    have hkept := hclear.trans (Kept.of_sameUsers hsame)
    rw [hrun, hrefused]
    split
    · exact hkept.booked
    · rename_i haccepted
      refine hkept.then (booked_store hok htrue henc rfl ?_ (Store.storable_of_record ho) ?_ ?_)
      · rw [hcopy "unionid" (by decide)]
        exact hs.keyed _ o ho
      · rw [hcopy "score" (by decide), hkept.score, scoreAt, Store.fieldsAt_of_record ho]
      · intro hmem
        obtain ⟨hset, -, hcoin⟩ := hreport (Bool.not_eq_true _ ▸ haccepted) hmem
        refine ⟨hset, ?_⟩
        unfold reportedCoin roomCoin gameAddCoin at *
        rw [hcopy "score" (by decide), hcopy "nickname" (by decide)]
        exact hcoin
  · exact (Kept.refl s).booked

/-- An update that is refused or sends no score is not logged. -/
theorem serviceUpdateUser_log (hs : Sound .users vs s) {msg : UpdateMsg}
    (h : refused now msg (s.fieldsAt (userKey (msg.userData.get "unionid"))) = false →
      msg.userData.isset "score" = false) :
    ((serviceUpdateUser now msg).run (exec w) s).2.table .opScoreLog = s.table .opScoreLog := by
  unfold serviceUpdateUser
  split
  · rw [Prog.run_bind, hs.getUser_run]
    dsimp only
    rw [Prog.run_bind, rewardIntroducer_run, Prog.run_bind]
    dsimp only
    obtain ⟨s1, hsame, hrun⟩ := update_run w ((clearYesterdayData now (msg.userData.get "unionid")
      (s.fieldsAt (userKey (msg.userData.get "unionid")))).run (exec w) s).2 now msg
      ((clearYesterdayData now (msg.userData.get "unionid")
        (s.fieldsAt (userKey (msg.userData.get "unionid")))).run (exec w) s).1
    have hs1 := hsame.opScoreLog.trans clearYesterdayData_log
    rw [hrun, refused_clearYesterdayData]
    split
    · exact hs1
    · rename_i haccepted
      have hset : ∀ user, (acceptedData now msg user).isset "score" = false := by
        intro user
        rw [Fields.isset, acceptedData_get_of_ne (by decide) (by decide)]
        exact h (Bool.not_eq_true _ ▸ haccepted)
      simp only [store, Prog.run_bind, hset]
      exact (updateUser2_table_of_ne w s1 _ _ (by decide)).trans hs1
  · rfl

/-- `service_updateUser.php` keeps the ledger. -/
theorem ledger_serviceUpdateUser (hs : Sound .users vs s) (hl : Ledger s)
    (hok : ∀ n, w.mysqlOk n = true) {msg : UpdateMsg} (hproper : UpdateProper s now msg)
    (hlogged : UpdateLogged s now msg) :
    Ledger ((serviceUpdateUser now msg).run (exec w) s).2 := by
  have hkeyed := (sound_serviceUpdateUser (w := w) hs nofun hproper nofun nofun).keyed
  cases hrecord : s.record (userKey (msg.userData.get "unionid")) with
  | some o =>
      exact hl.booked hs.keyed hkeyed (Option.isSome_of_eq_some hrecord)
        (booked_serviceUpdateUser hs hok hlogged hrecord)
  | none =>
      cases htrue : (msg.userData.get "unionid").toBool with
      | false =>
          rw [serviceUpdateUser, htrue, if_neg Bool.false_ne_true]
          exact hl
      | true =>
          -- the user cannot have a record, and no score is sent
          have hst : ¬ storableKey (userKey (msg.userData.get "unionid")) := by
            intro hst
            have hsome := (hproper htrue).1 hst
            rw [hrecord] at hsome
            cases hsome
          refine hl.congr (fun k => ?_) (serviceUpdateUser_log hs fun haccepted => ?_)
          · by_cases hk : userKey (msg.userData.get "unionid") = k
            · rw [← hk, hrecord, Store.record_of_not_storable hst]
            · exact serviceUpdateUser_record_of_ne hk s
          · rw [← Bool.not_eq_true]
            intro hset
            have hsome := (hlogged htrue haccepted
              (Fields.mem_of_get_ne_null (JsonObject.isset_eq_true.mp hset))).2.1
            rw [hrecord] at hsome
            cases hsome

end GameServer

/-! ## Runs -/

/-- What a request must keep to: it is one of those that the log is about, it does not change a
score without a log entry, and it does not log a score that it does not store. -/
def Logged (s : Store) (l : Arrival) : Prop :=
  match l.request with
  | .login _ msg => LoginLogged s l.now msg
  | .addCoin msg => msg.isset "unionid" = true
  | .getUserData _ => True
  | .serviceGateWay msg => GatewayLogged s l.now msg
  | .serviceUpdateUser msg => UpdateLogged s l.now msg
  | _ => False

instance (s : Store) : (l : Arrival) → Decidable (Logged s l)
  | ⟨now, .login _ msg⟩ => inferInstanceAs (Decidable (LoginLogged s now msg))
  | ⟨_, .addCoin msg⟩ => inferInstanceAs (Decidable (msg.isset "unionid" = true))
  | ⟨_, .getUserData _⟩ => isTrue trivial
  | ⟨now, .serviceGateWay msg⟩ => inferInstanceAs (Decidable (GatewayLogged s now msg))
  | ⟨now, .serviceUpdateUser msg⟩ => inferInstanceAs (Decidable (UpdateLogged s now msg))
  | ⟨_, .register _ _⟩ | ⟨_, .weixinPayNotify _⟩ | ⟨_, .getExchangeCode _⟩ | ⟨_, .getIntroducer _⟩
  | ⟨_, .bindMobile _⟩ | ⟨_, .getInviteReward _⟩ | ⟨_, .getRoomResults _⟩
  | ⟨_, .getExchangeRecord _⟩ | ⟨_, .getNoticeList⟩ | ⟨_, .gmSendRoomCard _⟩
  | ⟨_, .gmBuyRoomCard _⟩ | ⟨_, .gmUpdateUser _⟩ | ⟨_, .gmIntroducerReward _⟩ | ⟨_, .gmGetUser _⟩
  | ⟨_, .gmGetUserByUnionid _⟩ | ⟨_, .gmActivitySetting _⟩ | ⟨_, .serviceGetUser _⟩
  | ⟨_, .serviceAddNotice _⟩ | ⟨_, .serviceSubRewardPool _⟩ | ⟨_, .serviceGetRewardPool⟩
  | ⟨_, .serviceGetActInfo⟩ | ⟨_, .serviceGetRoomConfig⟩ => isFalse id

/-- Every request keeps the ledger. -/
theorem ledger_step {vs : List String} {s : Store} {w : World} (hok : ∀ n, w.mysqlOk n = true)
    (hs : Sound .users vs s) (hl : Ledger s) (l : Arrival) (hproper : Proper s l)
    (hlogged : Logged s l) : Ledger (step w s l) := by
  obtain ⟨now, request⟩ := l
  cases request with
  | login ip msg => exact ledger_login hs hl hok hproper hlogged
  | addCoin msg => exact ledger_addCoin hs hl hok hlogged
  | getUserData msg => exact ledger_getUserData hs hl hok
  | serviceGateWay msg => exact ledger_serviceGateWay hs hl hok hproper hlogged
  | serviceUpdateUser msg => exact ledger_serviceUpdateUser hs hl hok hproper hlogged
  | _ => exact absurd hlogged id

/-- **The score log**, in every run of logins, recharges, reads of the own data and requests of the
game server from the empty stores in which MySQL accepts every statement, if no daily top-up is
made, no coins are taken with a red packet, the game server reports the coins of the room
result, and the numbers are plain: each entry adds up, and the score of every user is the one of the
registration and the sum of the entries. -/
theorem scores_logged (w : World) (hok : ∀ n, w.mysqlOk n = true) {ls : List Arrival}
    (hrun : Guarded (step w) (fun s l => Proper s l ∧ Logged s l ∧ PlainStep s l) Store.empty ls) :
    Ledger (ls.foldl (step w) Store.empty) := by
  have hboth : (fun vs s => Sound .users vs s ∧ Ledger s)
      ([] ++ eventValues (step w) registers Store.empty ls) (ls.foldl (step w) Store.empty) := by
    refine hrun.history (H := fun vs s => Sound .users vs s ∧ Ledger s) ?_
      ⟨sound_empty, ledger_empty⟩
    rintro vs s l ⟨hs, hl⟩ ⟨hproper, hlogged, -⟩
    exact ⟨sound_step .users nofun hs l hproper nofun nofun,
      ledger_step hok hs hl l hproper hlogged⟩
  exact hboth.2

/-! ## A top-up -/

/-- The time of the samples. -/
def sampleTime : ℕ := 1600000000

/-- User `a` logs in with all profile fields. -/
def sampleLogin : Request :=
  .login (.str "10.0.0.7")
    ⟨Fields.ofList [("unionid", .str "a"), ("nickname", .str "a"), ("sex", .num 1),
        ("headimgurl", .str "h"), ("city", .str "c")], Fields.encodes_iff.mp rfl⟩

/-- The result of a game. -/
def sampleGame (coin : ℚ) : Request :=
  .serviceGateWay
    ⟨⟨Fields.ofList [("unionid", .str "a"), ("cmd", .str "cmd_submitGameResult"),
        ("addCoin", .num coin)], Fields.encodable_ofList (by simp [Fields.encodable])⟩,
      ⟨[], .null⟩⟩

/-- A login, a loss of 20 coins, and a login on the next day: the score is 24, the log says 16. -/
theorem top_up_unlogged :
    ¬ ∀ w : World, (∀ n, w.mysqlOk n = true) → ∀ ls : List Arrival,
      Ledger (ls.foldl (step w) Store.empty) := by
  intro h
  have hl := h World.plain (fun _ => rfl) [⟨sampleTime, sampleLogin⟩,
    ⟨sampleTime + 60, sampleGame (-20)⟩, ⟨sampleTime + 86400, sampleLogin⟩]
  exact absurd (hl.score_eq (k := "u_a") (by decide +kernel)) (by decide +kernel)

/-- A login, two games, and a login on the next day. -/
def sampleRun : List Arrival :=
  [⟨sampleTime, sampleLogin⟩, ⟨sampleTime + 60, sampleGame (-10)⟩,
    ⟨sampleTime + 120, sampleGame 4⟩, ⟨sampleTime + 86400, sampleLogin⟩]

/-- In the sample run all changes of a score are logged. -/
theorem logged_in_sampleRun :
    (∀ n, World.plain.mysqlOk n = true) ∧ Ledger (sampleRun.foldl (step World.plain) Store.empty) :=
  ⟨fun _ => rfl, scores_logged World.plain (fun _ => rfl) (by decide +kernel)⟩

end ScoreLedger

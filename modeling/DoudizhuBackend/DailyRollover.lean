/-
# The daily roll-over

The first request of a user on a new date counts a login day and clears the counters of the day
before.  The block stands in `login.php` and in `service_updateUser.php`: it writes the new
`lastLoginTime` into the record, but not into the copy the request goes on with.  A request that
writes this copy back later restores the old date, and the next request rolls over again:
`service_updateUser.php` at its end, and `login.php` when it hands out a reward of the back office.

This file is about runs of such requests, each executed as a whole, at times that do not go back.
`Safe` excludes the write of a stale copy; then there is at most one roll-over per user and date
(`rollover_once`), if the numbers are plain.
-/
import DoudizhuBackend.GuardedRun
import DoudizhuBackend.PlainNumbers
import DoudizhuBackend.RequestEffects
import Mathlib.Tactic.Linarith

open Php GameData GameServer Login

/-! ## Dates are not numeric strings -/

namespace Calendar

/-- Digits followed by a dash are the numeric prefix of a text. -/
theorem numeral_digits_dash {ds rest : List Char} (hne : ds ≠ [])
    (hds : ∀ c ∈ ds, c.isDigit = true) :
    ∃ q, numeral (ds ++ '-' :: rest) = some (q, '-' :: rest) := by
  obtain ⟨d, ds, rfl⟩ := List.exists_cons_of_ne_nil hne
  have hd : d.isDigit = true := hds d List.mem_cons_self
  have hblank : isBlank d = false := by
    cases hb : isBlank d with
    | false => rfl
    | true =>
        simp only [isBlank, Bool.or_eq_true, beq_iff_eq] at hb
        rcases hb with ((((rfl | rfl) | rfl) | rfl) | rfl) | rfl <;> exact absurd hd (by decide)
  have hsign : splitSign (d :: (ds ++ '-' :: rest)) = (false, d :: (ds ++ '-' :: rest)) := by
    unfold splitSign
    split
    · rename_i h; cases h; exact absurd hd (by decide)
    · rename_i h; cases h; exact absurd hd (by decide)
    · rfl
  have hunsigned : unsigned (d :: (ds ++ '-' :: rest)) = decimal (d :: (ds ++ '-' :: rest)) := by
    -- the second character is a digit or the dash, never an `x`
    have hsecond : ∀ c cs, ds ++ '-' :: rest = c :: cs → c ≠ 'x' ∧ c ≠ 'X' := by
      intro c cs h
      cases ds with
      | nil => cases h; decide
      | cons d' ds =>
          cases h
          have hc : c.isDigit = true := hds c (by simp)
          constructor <;> rintro rfl <;> exact absurd hc (by decide)
    unfold unsigned
    split
    · rename_i cs h
      injection h with _ h
      exact absurd rfl (hsecond _ _ h).1
    · rename_i cs h
      injection h with _ h
      exact absurd rfl (hsecond _ _ h).2
    · rfl
  have htake : (d :: (ds ++ '-' :: rest)).takeWhile Char.isDigit = d :: ds := by
    rw [← List.cons_append, List.takeWhile_append_of_pos hds]
    simp
  have hdrop : (d :: (ds ++ '-' :: rest)).dropWhile Char.isDigit = '-' :: rest := by
    rw [← List.cons_append, List.dropWhile_append_of_pos hds]
    simp
  unfold numeral
  rw [List.cons_append, List.dropWhile_cons_of_neg (by simp [hblank]), hsign]
  dsimp only
  rw [hunsigned]
  unfold decimal
  rw [htake, hdrop]
  simp [splitExponent]

/-- A date is no number. -/
theorem numericString_date (now : ℕ) : numericString (date now) = none := by
  unfold date dateText
  generalize civil (day now) = ymd
  obtain ⟨y, m, d⟩ := ymd
  have hdigits : ∀ c ∈ (toString y).toList, c.isDigit = true := by
    intro c hc
    rw [Nat.toString_eq_ofList_toDigits, String.toList_ofList] at hc
    exact Nat.isDigit_of_mem_toDigits (by decide) (by decide) hc
  have hne : (toString y).toList ≠ [] := by
    rw [Nat.toString_eq_ofList_toDigits, String.toList_ofList]
    exact Nat.toDigits_ne_nil
  have htext : (toString y ++ "-" ++ pad2 m ++ "-" ++ pad2 d).toList =
      (toString y).toList ++ '-' :: (pad2 m ++ "-" ++ pad2 d).toList := by
    simp [String.toList_append]
  obtain ⟨q, hq⟩ := numeral_digits_dash hne hdigits
  unfold numericString
  dsimp only
  rw [htext, hq]

/-- And it is not empty. -/
theorem date_ne_empty (now : ℕ) : date now ≠ "" := by
  unfold date dateText
  generalize civil (day now) = ymd
  obtain ⟨y, m, d⟩ := ymd
  intro h
  have htext := congrArg String.toList h
  simp [String.toList_append] at htext

end Calendar

namespace DailyRollover

/-! ## The requests -/

/-- The fields that the roll-over is about. -/
def dayNames : List String :=
  ["lastLoginTime", "loginDayCount", "todayRedPackCount", "todayRechargeVal"]

/-- The counters that are cleared. -/
def todayNames : List String := ["todayRedPackCount", "todayRechargeVal"]

/-- A login, or an update whose data does not name these fields. -/
inductive Request where
  | login (ip : Value) (msg : JsonObject)
  | updateUser (msg : UpdateMsg) (h : ∀ f ∈ dayNames, f ∉ msg.userData.fields)

/-- A request and the time at which it is handled. -/
structure Arrival where
  now : ℕ
  request : Request

/-- What the server runs for the request. -/
def Arrival.handler (l : Arrival) : Handler Reply :=
  match l.request with
  | .login ip msg => login l.now ip msg
  | .updateUser msg _ => serviceUpdateUser l.now msg

/-- The user of a request. -/
def Arrival.unionid (l : Arrival) : Value :=
  match l.request with
  | .login _ msg => msg.get "unionid"
  | .updateUser msg _ => msg.userData.get "unionid"

/-- The key of the user that the request names. -/
def Arrival.key (l : Arrival) : String := userKey l.unionid

/-- The stores, and the time of the last request. -/
structure State where
  clock : ℕ
  store : Store

section Run

variable (w : World)

/-- The request is executed as a whole. -/
def step (s : State) (l : Arrival) : State := ⟨l.now, (l.handler.run (exec w) s.store).2⟩

/-- The request is answered with `errno` 1000. -/
def accepted (s : State) (l : Arrival) : Bool :=
  (l.handler.run (exec w) s.store).1.errno? == some 1000

/-- The record of a user. -/
def recordAt (k : String) (s : State) : Fields := s.store.fieldsAt k

/-- The request reaches the roll-over block: an accepted login, and an update with a `unionid`. -/
def reaches (s : State) (l : Arrival) : Bool :=
  match l.request with
  | .login _ _ => accepted w s l
  | .updateUser msg _ => (msg.userData.get "unionid").toBool

/-- The request makes the roll-over of the user under `k`.  There is no record under a key that SSDB does
not accept. -/
def rollsOver (k : String) (s : State) (l : Arrival) : Bool :=
  l.key == k && decide (storableKey k) && reaches w s l && rolloverDue l.now (recordAt k s)

/-- The request raises `loginDayCount` of the user under `k`. -/
def countsDay (k : String) (s : State) (l : Arrival) : Bool :=
  decide (((recordAt k s).get "loginDayCount").toNum <
    ((recordAt k (step w s l)).get "loginDayCount").toNum)

/-- The request clears a counter of the day: it was not 0, and is 0 afterwards. -/
def clears (k : String) (s : State) (l : Arrival) : Bool :=
  todayNames.any fun f => decide (((recordAt k s).get f).toNum ≠ 0) &&
    decide (((recordAt k (step w s l)).get f).toNum = 0)

/-- An event on a day. -/
def onDay (d : ℕ) (E : State → Arrival → Bool) (s : State) (l : Arrival) : Bool :=
  Calendar.day l.now == d && E s l

end Run

/-- Time does not go back, and the request does not write a stale copy of the record: a login
names a user, does not replace a record by values that cannot be encoded, and hands out no reward
when a roll-over is due; an update is refused when a roll-over is due. -/
def Safe (s : State) (l : Arrival) : Prop :=
  s.clock ≤ l.now ∧
    match l.request with
    | .login ip msg =>
        msg.isset "unionid" = true ∧
        ((s.store.record l.key).isSome = true → isType msg "weixin" = true →
          (userData ip msg).encodes = true) ∧
        (admits msg (recordAt l.key s) = true → rolloverDue l.now (recordAt l.key s) = true →
          isAdd (recordAt l.key s) = false)
    | .updateUser msg _ =>
        (msg.userData.get "unionid").toBool = true →
          rolloverDue l.now (recordAt l.key s) = true →
            refused l.now msg (recordAt l.key s) = true

instance (s : State) (l : Arrival) : Decidable (Safe s l) := by
  unfold Safe; split <;> infer_instance

/-- The numbers in the records and in the request are plain. -/
def Plain (s : State) (l : Arrival) : Prop :=
  s.store.Plain ∧
    match l.request with
    | .login _ msg => msg.fields.Plain
    | .updateUser msg _ => msg.Plain

instance (s : State) (l : Arrival) : Decidable (Plain s l) := by
  unfold Plain; split <;> infer_instance

/-! ## When a roll-over is due -/

/-- A stored `lastLoginTime`: a text, or not set. -/
def Dated (o : Fields) : Prop :=
  o.get "lastLoginTime" = .null ∨ ∃ t, o.get "lastLoginTime" = .str t

/-- A roll-over is not due exactly on the stored date. -/
theorem rolloverDue_eq_false {now : ℕ} {o : Fields} (h : Dated o) :
    rolloverDue now o = false ↔ o.get "lastLoginTime" = .str (Calendar.date now) := by
  rw [rolloverDue, Bool.not_eq_false']
  constructor
  · intro heq
    rcases h with hnull | ⟨t, ht⟩
    · rw [hnull] at heq
      exact absurd (by simpa [Value.looseEq] using heq) (Calendar.date_ne_empty now)
    · rw [ht] at heq
      rw [ht, Value.eq_of_looseEq_str (Calendar.numericString_date now) heq]
  · intro heq
    rw [heq]
    exact Value.looseEq_str_self _

/-- A record without a date is due. -/
theorem rolloverDue_of_blank {now : ℕ} {o : Fields}
    (h : o.get "lastLoginTime" = .null ∨ o.get "lastLoginTime" = .str "") :
    rolloverDue now o = true := by
  have hdated : Dated o := h.imp_right fun h => ⟨"", h⟩
  rw [← Bool.not_eq_false, rolloverDue_eq_false hdated]
  intro heq
  rw [heq] at h
  rcases h with h | h
  · cases h
  · exact Calendar.date_ne_empty now (Value.str.inj h)

/-- The fields that decide about further roll-overs and count the day are the same. -/
structure SameDay (o o' : Fields) : Prop where
  last : o'.get "lastLoginTime" = o.get "lastLoginTime"
  count : o'.get "loginDayCount" = o.get "loginDayCount"
  today : ∀ f ∈ todayNames, (o'.get f).toNum = (o.get f).toNum

theorem SameDay.refl (o : Fields) : SameDay o o := ⟨rfl, rfl, fun _ _ => rfl⟩

/-- The fields of the day are the same over several writes. -/
theorem SameDay.trans {o o' o'' : Fields} (h : SameDay o o') (h' : SameDay o' o'') :
    SameDay o o'' :=
  ⟨h'.last.trans h.last, h'.count.trans h.count, fun f hf => (h'.today f hf).trans (h.today f hf)⟩

/-- The counters are among the fields of the day. -/
theorem mem_dayNames_of_todayNames {f : String} (hf : f ∈ todayNames) : f ∈ dayNames := by
  revert f
  decide

/-- Equal fields of the day. -/
theorem SameDay.of_get {o o' : Fields} (h : ∀ f ∈ dayNames, o'.get f = o.get f) : SameDay o o' :=
  ⟨h _ (by decide), h _ (by decide), fun f hf => by rw [h f (mem_dayNames_of_todayNames hf)]⟩

/-- Data that names none of the fields leaves them. -/
theorem SameDay.merge {o data : Fields} (h : ∀ f ∈ dayNames, f ∉ data) :
    SameDay o (o.merge data) :=
  .of_get fun f hf => Fields.get_merge_of_notMem (h f hf)

/-- A copy has the same fields of the day. -/
theorem SameDay.of_copy {o o' : Fields} (h : Copy o' o) : SameDay o o' :=
  .of_get fun f hf => h f (by rintro rfl; exact absurd hf (by decide))

/-- The fields after a roll-over. -/
theorem afterRollover_of_due {now : ℕ} {u : Value} {o : Fields} (h : rolloverDue now o = true) :
    (afterRollover now u o).get "lastLoginTime" = .str (Calendar.date now) ∧
      (afterRollover now u o).get "loginDayCount" =
        .num ((o.get "loginDayCount").toNum + 1) := by
  rw [afterRollover, if_pos h]
  constructor
  · rw [Fields.get_merge_of_mem (by simp [rolloverData, Fields.mem_ofList])]
    simp [rolloverData, Fields.get_ofList_cons]
  · rw [Fields.get_merge_of_mem (by simp [rolloverData, Fields.mem_ofList])]
    simp [rolloverData, Fields.get_ofList_cons]

/-- And it clears the counters. -/
theorem afterRollover_today {now : ℕ} {u : Value} {o : Fields} (h : rolloverDue now o = true) :
    ∀ f ∈ todayNames, (afterRollover now u o).get f = .num 0 := by
  intro f hf
  rw [afterRollover, if_pos h, Fields.get_merge_of_mem]
  · simp only [todayNames, List.mem_cons, List.not_mem_nil, or_false] at hf
    rcases hf with rfl | rfl <;> simp [rolloverData, Fields.get_ofList_cons]
  · simp only [todayNames, List.mem_cons, List.not_mem_nil, or_false] at hf
    rcases hf with rfl | rfl <;> simp [rolloverData, Fields.mem_ofList]

/-- The roll-over depends on these fields only. -/
theorem sameDay_afterRollover {now : ℕ} {u : Value} {o o' : Fields} (h : SameDay o o') :
    SameDay (afterRollover now u o) (afterRollover now u o') := by
  have hdue : rolloverDue now o' = rolloverDue now o := by
    rw [rolloverDue, h.last, rolloverDue]
  cases hd : rolloverDue now o with
  | true =>
      obtain ⟨hlast, hcount⟩ := afterRollover_of_due (u := u) hd
      obtain ⟨hlast', hcount'⟩ := afterRollover_of_due (u := u) (hdue.trans hd)
      refine ⟨hlast'.trans hlast.symm, by rw [hcount', hcount, h.count], fun f hf => ?_⟩
      rw [afterRollover_today (hdue.trans hd) f hf, afterRollover_today hd f hf]
  | false =>
      simpa [afterRollover, hdue, hd] using h

/-! ## Login -/

section Login

variable {w : World} {k : String} {o user : Fields} {now : ℕ} {u ip : Value} {msg : JsonObject}

/-- The record under `k` is there and has the contents `o`, but for the number. -/
def At (k : String) (o : Fields) (s : Store) : Prop :=
  Holds k o s ∧ (s.record k).isSome = true

/-- `getUser` brings a copy of the record, and leaves it. -/
theorem getUser_at (hu : userKey u = k) : Prog.Triple (exec w) (At k o) (getUser u) fun user s =>
    At k o s ∧ user.Encodable ∧ Copy user o ∧ user.isEmpty = false := by
  rintro s ⟨hs, hsome⟩
  obtain ⟨hs', huser, hcopy⟩ := getUser_holds (w := w) (u := u) s hs
  have hempty := (getUser_found w s u).isEmpty
  rw [hu, Option.isNone_eq_false_iff.mpr hsome] at hempty
  exact ⟨⟨hs', by rwa [getUser_record]⟩, huser, hcopy hu, hempty⟩

/-- `updateUser` merges its data into the record. -/
theorem updateUser_at {data : Fields} (hdata : data.Encodable) (htarget : Targets k data) :
    Prog.Triple (exec w) (At k o) (updateUser data) fun _ => At k (o.merge data) := by
  rintro s ⟨hs, hsome⟩
  obtain ⟨r, hr⟩ := Option.isSome_iff_exists.mp hsome
  have hpost := updateUser_holds (w := w) (Store.storable_of_record hr) hdata s hs
  rw [if_pos htarget] at hpost
  exact ⟨hpost, updateUser_isSome w s hdata hsome⟩

/-- The first part of a login of a registered user. -/
theorem enter_at (hu : userKey (msg.get "unionid") = k) (hset : msg.isset "unionid" = true)
    (henc : isType msg "weixin" = true → (userData ip msg).Encodable) (hcopy : Copy user o)
    (hempty : user.isEmpty = false) :
    Prog.Triple (exec w) (At k o) (enter now ip msg user) fun refusal s =>
      refusal = entryRefusal msg o ∧
        At k (if isType msg "weixin" then o.merge (userData ip msg) else o) s := by
  unfold enter entryRefusal
  rw [hempty, if_neg Bool.false_ne_true, ← hcopy "password" (by decide)]
  cases hweixin : isType msg "weixin" with
  | true =>
      have htarget : Targets k (userData ip msg) := by
        rw [Targets, userData_unionid]
        exact ⟨userData_isset hset, hu⟩
      exact .bind (updateUser_at (henc hweixin) htarget) fun _ => .ret fun s hs => ⟨rfl, hs⟩
  | false =>
      simp only [Bool.false_eq_true, if_false]
      refine .ite (fun h1 => ?_) fun h1 => ?_
      · rw [if_pos h1]
        refine .ite (fun h2 => ?_) fun h2 => ?_
        · rw [if_pos h2]; exact .ret fun s hs => ⟨rfl, hs⟩
        · rw [if_neg h2]; exact .ret fun s hs => ⟨rfl, hs⟩
      · rw [if_neg h1]
        refine .ite (fun h2 => ?_) fun h2 => ?_
        · rw [if_pos h2]; exact .ret fun s hs => ⟨rfl, hs⟩
        · rw [if_neg h2]; exact .ret fun s hs => ⟨rfl, hs⟩

/-- The daily top-up writes only the score and the mark. -/
theorem dailyTopUp_holds (hk : storableKey k) (henc : Fields.encodable u = true)
    (huser : user.Encodable) :
    Prog.Triple (exec w) (Holds k o) (dailyTopUp now u user) fun res s =>
      res.1.Encodable ∧ (∀ f, f ≠ "score" → res.1.get f = user.get f) ∧
        ∃ o', Holds k o' s ∧ SameDay o o' := by
  unfold dailyTopUp
  refine .bind (M := fun _ => Holds k o) ?_ fun added => ?_
  · intro s hs
    exact hs.of_record (isAddCoinToday_record w s now u k)
  refine .ite (fun _ => .ret fun s hs => ⟨huser, fun _ _ => rfl, o, hs, .refl o⟩) fun _ => ?_
  refine .ite (fun _ => ?_) fun _ => .ret fun s hs => ⟨huser, fun _ _ => rfl, o, hs, .refl o⟩
  have hdata : (topUpData u).Encodable :=
    Fields.encodable_ofList (by simpa [Fields.encodable] using henc)
  refine .bind (updateUser_holds hk hdata) fun _ => .ret fun s hs => ?_
  refine ⟨huser.set rfl, fun f hf => Fields.get_set_of_ne hf, _, hs, ?_⟩
  split
  · exact .merge (by simp [dayNames, topUpData, Fields.mem_ofList])
  · exact .refl o

/-- **The second part of a login.**  The record is left as the roll-over has written it, if no
reward is handed out on a day with a roll-over. -/
theorem admitted_holds (now : ℕ) (hk : storableKey k) (hu : userKey (msg.get "unionid") = k)
    (hset : msg.isset "unionid" = true) (hkeyed : userKey (o.get "unionid") = k)
    (hreward : rolloverDue now o = true → isAdd o = false) (huser : user.Encodable)
    (hcopy : Copy user o) :
    Prog.Triple (exec w) (Holds k o) (admitted now msg user) fun reply s =>
      reply.errno? = some 1000 ∧
        ∃ o', Holds k o' s ∧ SameDay (afterRollover now (msg.get "unionid") o) o' := by
  have henc := msg.encodable_get "unionid"
  unfold admitted
  dsimp only
  refine .bind (clearYesterdayData_holds hk hu (JsonObject.isset_eq_true.mp hset) henc huser hcopy)
    fun user1 => .of_pre (a := user1.Encodable ∧ Copy user1 (copyAfterRollover now o))
      (fun s hs => ⟨hs.1, hs.2.1⟩) fun h1 => ?_
  refine .bind (.mono (dailyTopUp_holds hk henc h1.1) (fun s hs => hs.2.2) fun _ _ h => h)
    fun res => ?_
  refine .bind (M := fun _ s => ∃ o', Holds k o' s ∧
    SameDay (afterRollover now (msg.get "unionid") o) o') ?_ fun _ => .ret fun s hs => ⟨rfl, hs⟩
  rintro s ⟨henc2, hget, o', hs, hday⟩
  -- the copy that the reward may write back
  have hcopied : ∀ f ∉ ["userno", "score", "todayRechargeVal"],
      (res.1.setDefault "todayRechargeVal" (.num 0)).get f = (copyAfterRollover now o).get f := by
    intro f hf
    simp only [List.mem_cons, not_or] at hf
    rw [Fields.get_setDefault, if_neg hf.2.2.1, hget f hf.2.1, h1.2 f hf.1]
  have hrecord := addUserReward_record w s now (res.1.setDefault "todayRechargeVal" (.num 0)) k
  by_cases hadd : isAdd (res.1.setDefault "todayRechargeVal" (.num 0)) = true
  · have hdue : rolloverDue now o = false := by
      rw [isAdd_congr (o := o)] at hadd
      · cases hd : rolloverDue now o with
        | false => rfl
        | true => exact absurd (hreward hd) (by simp [hadd])
      · intro f hf
        simp only [List.mem_cons, List.not_mem_nil, or_false] at hf
        rcases hf with rfl | rfl | rfl <;>
          exact (hcopied _ (by decide)).trans (copyAfterRollover_get_of_notMem (by decide))
    have hafter : afterRollover now (msg.get "unionid") o = o := by simp [afterRollover, hdue]
    have hcopyo : copyAfterRollover now o = o := by simp [copyAfterRollover, hdue]
    rw [hcopyo] at hcopied
    rw [if_pos ⟨hadd, by rw [hcopied _ (by decide), hkeyed], hk⟩,
      Fields.jsonEncode_of_encodable (rewarded_encodable (henc2.setDefault rfl))] at hrecord
    refine ⟨rewarded (res.1.setDefault "todayRechargeVal" (.num 0)), ?_, ?_⟩
    · rw [Holds, Store.fieldsAt_of_record hrecord]
      exact Copy.refl _
    · rw [hafter]
      refine ⟨(rewarded_get_of_notMem (by decide)).trans (hcopied _ (by decide)),
        (rewarded_get_of_notMem (by decide)).trans (hcopied _ (by decide)), fun f hf => ?_⟩
      rw [rewarded_get_of_notMem (by
        simp only [todayNames, List.mem_cons, List.not_mem_nil, or_false] at hf
        rcases hf with rfl | rfl <;> decide)]
      simp only [todayNames, List.mem_cons, List.not_mem_nil, or_false] at hf
      rcases hf with rfl | rfl
      · rw [hcopied _ (by decide)]
      · -- a counter that is not set counts for the default
        have htoday : res.1.get "todayRechargeVal" = o.get "todayRechargeVal" := by
          rw [hget _ (by decide), h1.2 _ (by decide), hcopyo]
        rw [Fields.get_setDefault, if_pos rfl, Fields.getD, Fields.isset, htoday]
        split
        · rfl
        · rename_i hunset
          rw [Bool.not_eq_true, decide_eq_false_iff_not, not_not] at hunset
          rw [hunset]
          rfl
  · rw [if_neg fun h => hadd h.1] at hrecord
    exact ⟨o', hs.of_record hrecord, hday⟩

/-- **The login of a registered user.**  An accepted login leaves the record as the roll-over has
written it, a refused one does not touch its date. -/
theorem login_at (now : ℕ) (ip : Value) (hu : userKey (msg.get "unionid") = k) (hset : msg.isset "unionid" = true)
    (henc : isType msg "weixin" = true → (userData ip msg).Encodable)
    (hkeyed : userKey (o.get "unionid") = k)
    (hreward : admits msg o = true → rolloverDue now o = true → isAdd o = false) :
    Prog.Triple (exec w) (At k o) (login now ip msg) fun reply s =>
      ∃ o', Holds k o' s ∧
        SameDay (if reply.errno? = some 1000 then afterRollover now (msg.get "unionid") o else o)
          o' := by
  unfold login
  refine .bind (getUser_at hu) fun user =>
    .of_pre (a := Copy user o ∧ user.isEmpty = false) (fun s hs => hs.2.2) fun huser => ?_
  refine .bind (.mono (enter_at hu hset henc huser.1 huser.2) (fun s hs => hs.1) fun _ _ h => h)
    fun refusal => .of_pre (fun s hs => hs.1) fun hrefusal => ?_
  subst hrefusal
  -- the record after the first part
  generalize ho1 : (if isType msg "weixin" then o.merge (userData ip msg) else o) = o1
  have hget : ∀ f ∈ dayNames ++ ["loginSwitch", "add_roomCardNum", "add_score", "add_redPackVal"],
      o1.get f = o.get f := by
    intro f hf
    rw [← ho1]
    split
    · refine Fields.get_merge_of_notMem fun hmem => ?_
      rw [mem_userData] at hmem
      revert f
      decide
    · rfl
  have hday : SameDay o o1 := .of_get fun f hf => hget f (List.mem_append_left _ hf)
  cases hrefusal : entryRefusal msg o with
  | some errno =>
      refine .ret fun s hs => ⟨o1, hs.2.1, ?_⟩
      simpa [errno_of_entryRefusal hrefusal] using hday
  | none =>
      refine .bind (.mono (getUser_at hu) (fun s hs => hs.2) fun _ _ h => h) fun user => ?_
      refine .of_pre (a := user.Encodable ∧ Copy user o1 ∧ user.isEmpty = false)
        (fun s hs => hs.2) fun huser => ?_
      have hswitch : switchedOff user = switchedOff o :=
        switchedOff_congr ((huser.2.1 _ (by decide)).trans (hget _ (by decide)))
      rw [huser.2.2, hswitch, Bool.false_or]
      cases hoff : switchedOff o with
      | true => exact .ret fun s hs => ⟨o1, hs.1.1, by simpa using hday⟩
      | false =>
          have hkeyed1 : userKey (o1.get "unionid") = k := by
            rw [← ho1]
            split
            · rw [Handler.merge_unionid (userData_isset hset), userData_unionid, hu]
            · exact hkeyed
          have hreward1 : rolloverDue now o1 = true → isAdd o1 = false := by
            rw [isAdd_congr fun f hf => hget f (List.mem_append_right _ (List.mem_cons_of_mem _ hf)),
              rolloverDue, hday.last, ← rolloverDue]
            exact hreward (admits_iff.mpr ⟨hrefusal, hoff⟩)
          rw [if_neg Bool.false_ne_true]
          intro s hs
          obtain ⟨r, hr⟩ := Option.isSome_iff_exists.mp hs.1.2
          obtain ⟨herrno, o', hs', hday'⟩ := admitted_holds (w := w) now (Store.storable_of_record hr) hu
            hset hkeyed1 hreward1 huser.1 huser.2.1 s hs.1.1
          refine ⟨o', hs', ?_⟩
          rw [if_pos herrno]
          exact (sameDay_afterRollover hday).trans hday'

/-- Everything a new record says about the day. -/
theorem newUser_day (now : ℕ) (user : Fields) :
    (newUser now user).get "lastLoginTime" = .str "" ∧
      (newUser now user).get "loginDayCount" = .num 0 ∧ isAdd (newUser now user) = false ∧
      switchedOff (newUser now user) = switchedOff user := by
  have hget : ∀ f ∈ ["lastLoginTime", "loginDayCount", "add_roomCardNum", "add_score",
      "add_redPackVal"], (newUser now user).get f = if f = "lastLoginTime" then .str "" else .num 0 := by
    intro f hf
    simp only [List.mem_cons, List.not_mem_nil, or_false] at hf
    rcases hf with rfl | rfl | rfl | rfl | rfl <;>
      simp [newUser_get, registrationFields, Fields.get_ofList_cons]
  refine ⟨by simp [hget], by simp [hget], ?_, ?_⟩
  · simp [isAdd, pendingReward, hget]
  · exact switchedOff_congr (by rw [newUser_get, if_neg (by simp [registrationFields])])

/-- **The login of an unknown user.**  An accepted login leaves the record as a roll-over of the
empty record has written it; after a refused one there is still no record. -/
theorem login_none (now : ℕ) (ip : Value) (hu : userKey (msg.get "unionid") = k) (hset : msg.isset "unionid" = true) :
    Prog.Triple (exec w) (fun s => s.record k = none) (login now ip msg) fun reply s =>
      if reply.errno? = some 1000 then
        ∃ o', Holds k o' s ∧ SameDay (afterRollover now (msg.get "unionid") ∅) o'
      else s.record k = none := by
  unfold login
  refine .bind (M := fun user s => s.record k = none ∧ user.isEmpty = true) ?_ fun user => ?_
  · intro s hs
    refine ⟨by rwa [getUser_record], ?_⟩
    rw [(getUser_found w s _).isEmpty, hu, hs]
    rfl
  refine .of_pre (fun s hs => hs.2) fun hempty => ?_
  -- the registration leaves no record, if the data cannot be encoded, or the new one
  refine .bind (M := fun refusal s => (refusal ≠ some 1000 ∧ s.record k = none) ∨
    (refusal = none ∧ At k (newUser now (userData ip msg)) s)) ?_ fun refusal => ?_
  · unfold enter
    rw [if_pos hempty]
    refine .ite (fun _ => .bind (M := fun _ s => s.record k = none ∨
      At k (newUser now (userData ip msg)) s) ?_ fun _ => .ret fun s hs => ?_)
      fun _ => .ret fun s hs => Or.inl ⟨by decide, hs.1⟩
    · rintro s ⟨hs, -⟩
      have hrecord := addUser_record w s now (userData ip msg) k
      rw [userData_unionid, hu] at hrecord
      by_cases hgood : storableKey k ∧ (registered now (userData ip msg) s).Encodable
      · rw [if_pos ⟨rfl, hgood.1⟩, Fields.jsonEncode_of_encodable hgood.2] at hrecord
        refine Or.inr ⟨?_, by rw [hrecord]; rfl⟩
        rw [Holds, Store.fieldsAt_of_record hrecord]
        exact fun f hf => registered_get_of_ne s now hf
      · left
        rw [hrecord]
        split
        · rename_i hk
          exact Fields.jsonEncode_of_not_encodable fun h => hgood ⟨hk.2, h⟩
        · exact hs
    · rcases hs with hs | hs
      · exact Or.inl ⟨by decide, hs⟩
      · exact Or.inr ⟨rfl, hs⟩
  · rintro s (⟨hne, hs⟩ | ⟨rfl, hs⟩)
    · cases refusal with
      | some errno =>
          have herrno : errno ≠ 1000 := fun h => hne (by rw [h])
          simpa [sendErrno, herrno] using hs
      | none =>
          have hempty : ((getUser (msg.get "unionid")).run (exec w) s).1.isEmpty = true := by
            rw [(getUser_found w s _).isEmpty, hu, hs]
            rfl
          simp only [Prog.run_bind, hempty, Bool.true_or, if_true]
          simpa [sendErrno, getUser_record] using hs
    · obtain ⟨hlast, hcount, hnoadd, hswitch⟩ := newUser_day now (userData ip msg)
      obtain ⟨r, hr⟩ := Option.isSome_iff_exists.mp hs.2
      obtain ⟨hs', huser, hcopy, hnonempty⟩ := getUser_at (w := w) hu s hs
      -- a new user is not switched off, and has no reward pending
      have hoff : switchedOff ((getUser (msg.get "unionid")).run (exec w) s).1 = false := by
        rw [switchedOff_congr (hcopy _ (by decide)), hswitch]
        simp [switchedOff, Fields.isset, userData, Fields.get_ofList_cons]
      obtain ⟨herrno, o', hpost, hday⟩ := admitted_holds (w := w) now
        (Store.storable_of_record hr) hu hset (by rw [newUser_unionid, userData_unionid, hu])
        (fun _ => hnoadd) huser hcopy _ hs'.1
      simp only [Prog.run_bind, hnonempty, hoff, Bool.or_false, Bool.false_eq_true, if_false]
      rw [if_pos herrno]
      refine ⟨o', hpost, ?_⟩
      -- the roll-over of a new record is that of none
      obtain ⟨hlast1, hcount1⟩ := afterRollover_of_due (u := msg.get "unionid")
        (rolloverDue_of_blank (Or.inr hlast))
      obtain ⟨hlast2, hcount2⟩ := afterRollover_of_due (u := msg.get "unionid")
        (rolloverDue_of_blank (o := ∅) (Or.inl rfl))
      refine ⟨hday.last.trans (hlast1.trans hlast2.symm), hday.count.trans (hcount1.trans ?_), fun f hf => ?_⟩
      · rw [hcount2, hcount]
        rfl
      · rw [hday.today f hf, afterRollover_today (rolloverDue_of_blank (Or.inr hlast)) f hf,
          afterRollover_today (rolloverDue_of_blank (Or.inl rfl)) f hf]

/-! ## Other users -/

/-- The roll-over writes the record under its own key. -/
theorem keyed_clearYesterdayData : Handler.Keyed (clearYesterdayData now u user) :=
  Handler.Keyed.ite (Handler.Keyed.bind (Handler.keyed_updateUser _) fun _ => trivial) trivial

/-- The mark of the day is no record. -/
theorem keyed_isAddCoinToday : Handler.Keyed (isAddCoinToday now u) :=
  (isAddCoinToday_writes now u).keyed (by simp)

/-- The top-up writes the record under its own key. -/
theorem keyed_dailyTopUp : Handler.Keyed (dailyTopUp now u user) := by
  refine Handler.Keyed.bind keyed_isAddCoinToday fun added => ?_
  refine Handler.Keyed.ite trivial (Handler.Keyed.ite ?_ trivial)
  exact Handler.Keyed.bind (Handler.keyed_updateUser _) fun _ => trivial

/-- So does the entry of a user. -/
theorem keyed_enter : Handler.Keyed (enter now ip msg user) := by
  refine Handler.Keyed.ite (Handler.Keyed.ite ?_ trivial) (Handler.Keyed.ite ?_ ?_)
  · exact Handler.Keyed.bind (Handler.keyed_addUser now _) fun _ => trivial
  · exact Handler.Keyed.bind (Handler.keyed_updateUser _) fun _ => trivial
  · exact Handler.Keyed.ite (Handler.Keyed.ite trivial trivial) (Handler.Keyed.ite trivial trivial)

/-- So does `login.php`. -/
theorem keyed_login : Handler.Keyed (login now ip msg) := by
  refine Handler.Keyed.bind (Handler.keyed_getUser _) fun user => ?_
  refine Handler.Keyed.bind keyed_enter fun refusal => ?_
  cases refusal with
  | some errno => trivial
  | none =>
      refine Handler.Keyed.bind (Handler.keyed_getUser _) fun user => ?_
      refine Handler.Keyed.ite trivial ?_
      refine Handler.Keyed.bind keyed_clearYesterdayData fun user => ?_
      refine Handler.Keyed.bind keyed_dailyTopUp fun res => ?_
      exact Handler.Keyed.bind (Handler.keyed_addUserReward now _) fun _ => trivial

/-- The entry of a user keeps the other records. -/
theorem enter_record_of_ne (hu : userKey (msg.get "unionid") ≠ k) (s : Store) :
    ((enter now ip msg user).run (exec w) s).2.record k = s.record k := by
  have hne : k ≠ userKey ((userData ip msg).get "unionid") := by
    rw [userData_unionid]
    exact hu.symm
  unfold enter
  split
  · split
    · rw [Prog.run_bind]
      exact (addUser_record w s now _ k).trans (if_neg fun h => hne h.1)
    · rfl
  · split
    · rw [Prog.run_bind]
      exact updateUser_record_of_ne w s hne
    · simp only [Prog.run_ite, Prog.pure_eq_ret, Prog.run_ret]
      split <;> split <;> rfl

/-- The roll-over keeps the `unionid` of the copy. -/
theorem clearYesterdayData_unionid (s : Store) :
    ((clearYesterdayData now u user).run (exec w) s).1.get "unionid" = user.get "unionid" := by
  unfold clearYesterdayData rolledOver
  split
  · rw [Prog.run_bind, Prog.pure_eq_ret, Prog.run_ret, Fields.get_set_of_ne (by decide),
      Fields.get_set_of_ne (by decide), Fields.get_set_of_ne (by decide)]
  · rfl

/-- What the daily top-up does to other users' records and to the copy's `unionid`: nothing. -/
theorem dailyTopUp_of_ne (now : ℕ) (user : Fields) (hu : userKey u ≠ k) (s : Store) :
    ((dailyTopUp now u user).run (exec w) s).2.record k = s.record k ∧
      ((dailyTopUp now u user).run (exec w) s).1.1.get "unionid" = user.get "unionid" := by
  have hne : k ≠ userKey ((topUpData u).get "unionid") := by
    simpa [topUpData, Fields.get_ofList_cons] using hu.symm
  unfold dailyTopUp
  rw [Prog.run_bind]
  split
  · exact ⟨isAddCoinToday_record w s now u k, rfl⟩
  · split
    · rw [Prog.run_bind]
      refine ⟨?_, Fields.get_set_of_ne (by decide)⟩
      exact (updateUser_record_of_ne w _ hne).trans (isAddCoinToday_record w s now u k)
    · exact ⟨isAddCoinToday_record w s now u k, rfl⟩

/-- An admitted login keeps the other records. -/
theorem admitted_record_of_ne (hu : userKey (msg.get "unionid") ≠ k)
    (huser : userKey (user.get "unionid") ≠ k) (s : Store) :
    ((admitted now msg user).run (exec w) s).2.record k = s.record k := by
  unfold admitted
  simp only [Prog.run_bind, Prog.pure_eq_ret, Prog.run_ret]
  obtain ⟨hrecord, hunionid⟩ := dailyTopUp_of_ne (w := w) now
    (((clearYesterdayData now (msg.get "unionid") user).run (exec w) s).1) hu
    ((clearYesterdayData now (msg.get "unionid") user).run (exec w) s).2
  rw [clearYesterdayData_record_of_ne hu] at hrecord
  rw [clearYesterdayData_unionid] at hunionid
  rw [addUserReward_record, if_neg, hrecord]
  rintro ⟨-, hk, -⟩
  rw [Fields.get_setDefault, if_neg (by decide), hunionid] at hk
  exact huser hk.symm

/-- Where every record is under its own key, a login leaves the other users' records alone. -/
theorem login_record_of_ne {s : Store} (hs : s.Keyed) (hu : userKey (msg.get "unionid") ≠ k) :
    ((login now ip msg).run (exec w) s).2.record k = s.record k := by
  have key : Prog.Triple (exec w) (fun s' => s'.Keyed ∧ s'.record k = s.record k) (login now ip msg)
      fun _ s' => s'.record k = s.record k := by
    unfold login
    refine .bind (M := fun _ s' => s'.Keyed ∧ s'.record k = s.record k) ?_ fun user => ?_
    · rintro s' ⟨hs', hrecord⟩
      exact ⟨(Handler.keyed_getUser _).run hs', by rwa [getUser_record]⟩
    refine .bind (M := fun _ s' => s'.Keyed ∧ s'.record k = s.record k) ?_ fun refusal => ?_
    · rintro s' ⟨hs', hrecord⟩
      exact ⟨keyed_enter.run hs', by rwa [enter_record_of_ne hu]⟩
    cases refusal with
    | some errno => exact .ret fun s' hs' => hs'.2
    | none =>
        refine .bind (M := fun user s' => s'.record k = s.record k ∧
          (user.isEmpty = false → userKey (user.get "unionid") ≠ k)) ?_ fun user => ?_
        · rintro s' ⟨hs', hrecord⟩
          refine ⟨by rwa [getUser_record], fun hempty => ?_⟩
          have hfound := getUser_found w s' (msg.get "unionid")
          rw [hfound.isEmpty, Option.isNone_eq_false_iff, Option.isSome_iff_exists] at hempty
          obtain ⟨o, ho⟩ := hempty
          rw [hfound.get _ (by decide), ho]
          exact (hs' _ o ho).symm ▸ hu
        refine .ite (fun _ => .ret fun s' hs' => hs'.1) fun hin => ?_
        simp only [Bool.or_eq_true, not_or, Bool.not_eq_true] at hin
        rintro s' ⟨hrecord, huser⟩
        rw [admitted_record_of_ne hu (huser hin.1), hrecord]
  exact key s ⟨hs, rfl⟩

end Login

/-! ## One request -/

section Step

variable {w : World} {k : String} {s : State} {l : Arrival}

/-- What every request keeps: records are under their own keys, and dates are texts. -/
structure Inv (s : Store) : Prop where
  keyed : s.Keyed
  dated : ∀ k, Dated (s.fieldsAt k)

/-- The end of an update writes the record under its own key. -/
theorem keyed_finish {now : ℕ} {user userData : Fields} {coin : ℚ} :
    Handler.Keyed (finish now user userData coin) := by
  refine Handler.Keyed.bind (Handler.Keyed.when (Handler.Keyed.bind
    (Handler.quiet_addRedpackRecordMysql _).keyed fun _ => trivial)) fun _ => ?_
  refine Handler.Keyed.bind (Handler.Keyed.ite (Handler.Keyed.bind
    ((insertAddScoreLogMysql_writes _).keyed (by simp)) fun _ => trivial) trivial) fun _ => ?_
  exact Handler.Keyed.bind (Handler.keyed_updateUser2 _ _) fun _ => trivial

/-- So does `service_updateUser.php`. -/
theorem keyed_serviceUpdateUser {now : ℕ} {msg : UpdateMsg} :
    Handler.Keyed (serviceUpdateUser now msg) := by
  refine Handler.Keyed.ite (Handler.Keyed.bind (Handler.keyed_getUser _) fun user => ?_) trivial
  refine Handler.Keyed.bind (Handler.Keyed.when (Handler.quiet_sitePage _ _).keyed) fun _ => ?_
  refine Handler.Keyed.bind keyed_clearYesterdayData fun user => ?_
  refine Handler.Keyed.bind (Handler.quiet_recordRoomResult _ _ _).keyed fun _ => ?_
  refine Handler.Keyed.ite (Handler.Keyed.ite ?_ trivial) keyed_finish
  exact Handler.Keyed.bind (Handler.quiet_recordRedPack _ _ _).keyed fun _ => keyed_finish

/-- Every request does. -/
theorem keyed_handler (l : Arrival) : Handler.Keyed l.handler := by
  obtain ⟨now, request⟩ := l
  cases request with
  | login ip msg => exact keyed_login
  | updateUser msg h => exact keyed_serviceUpdateUser

/-- The contents of the record under `k` after a request. -/
def expected (w : World) (k : String) (s : State) (l : Arrival) : Fields :=
  if rollsOver w k s l then afterRollover l.now l.unionid (recordAt k s) else recordAt k s

/-- If the request reaches the block, the roll-over is made as far as it is due. -/
theorem expected_of_reaches (h : reaches w s l = true) (hkey : l.key = k) (hk : storableKey k) :
    expected w k s l = afterRollover l.now l.unionid (recordAt k s) := by
  unfold expected rollsOver
  rw [h, hkey, decide_eq_true hk, beq_self_eq_true, Bool.true_and, Bool.true_and, Bool.true_and]
  split
  · rfl
  · rename_i hdue
    rw [afterRollover, if_neg hdue]

/-- A login reaches the roll-over block when it is answered with 1000. -/
theorem reaches_login {now : ℕ} {ip : Value} {msg : JsonObject} :
    reaches w s ⟨now, .login ip msg⟩ = true ↔
      ((login now ip msg).run (exec w) s.store).1.errno? = some 1000 := by
  rw [reaches, accepted, beq_iff_eq, Arrival.handler]

/-- A request that does not reach the block changes nothing. -/
theorem expected_of_not_reaches (h : reaches w s l = false) :
    expected w k s l = recordAt k s := by
  simp [expected, rollsOver, h]

/-- What holds of the record holds of the fields that are read. -/
theorem sameDay_recordAt {o o' : Fields} (hs : Holds k o' (step w s l).store) (h : SameDay o o') :
    SameDay o (recordAt k (step w s l)) :=
  h.trans (.of_copy hs)

/-- An accepted login has a record, so its key can be stored. -/
theorem storable_of_reaches {now : ℕ} {ip : Value} {msg : JsonObject}
    (hset : msg.isset "unionid" = true) (h : reaches w s ⟨now, .login ip msg⟩ = true) :
    storableKey (userKey (msg.get "unionid")) := by
  by_contra hk
  have hpost := login_none (w := w) now ip rfl hset s.store
    (Store.record_of_not_storable hk)
  obtain ⟨o', hs', hday⟩ := (if_pos (reaches_login.mp h)).mp hpost
  have hnull := (hday.last.symm.trans ( hs' "lastLoginTime" (by decide)).symm).trans
    (congrArg (Fields.get · "lastLoginTime")
      (Store.fieldsAt_of_none (Store.record_of_not_storable hk)))
  rw [(afterRollover_of_due (rolloverDue_of_blank (Or.inl rfl))).1] at hnull
  cases hnull

/-- What a login does to the fields of the day. -/
theorem login_step {now : ℕ} {ip : Value} {msg : JsonObject} (hinv : Inv s.store)
    (hsafe : Safe s ⟨now, .login ip msg⟩) :
    SameDay (expected w (userKey (msg.get "unionid")) s ⟨now, .login ip msg⟩)
      (recordAt (userKey (msg.get "unionid")) (step w s ⟨now, .login ip msg⟩)) := by
  obtain ⟨-, hset, henc, hreward⟩ := hsafe
  cases hrecord : s.store.record (userKey (msg.get "unionid")) with
  | some r =>
      have hk : storableKey (userKey (msg.get "unionid")) := Store.storable_of_record hrecord
      have hkeyed : userKey ((recordAt (userKey (msg.get "unionid")) s).get "unionid") =
          userKey (msg.get "unionid") := by
        rw [recordAt, Store.fieldsAt_of_record hrecord]
        exact hinv.keyed _ r hrecord
      have hsome : (s.store.record (userKey (msg.get "unionid"))).isSome = true := by
        rw [hrecord]; rfl
      obtain ⟨o', hs', hday⟩ := login_at (w := w) now ip rfl hset
        (fun hweixin => Fields.encodes_iff.mp (henc hsome hweixin)) hkeyed hreward s.store
        ⟨Copy.refl _, hsome⟩
      refine sameDay_recordAt hs' ?_
      cases hreach : reaches w s ⟨now, .login ip msg⟩ with
      | true =>
          rw [if_pos (reaches_login.mp hreach)] at hday
          rw [expected_of_reaches (k := userKey (msg.get "unionid")) hreach rfl hk]
          exact hday
      | false =>
          rw [if_neg fun h => Bool.false_ne_true (hreach.symm.trans (reaches_login.mpr h))] at hday
          rw [expected_of_not_reaches hreach]
          exact hday
  | none =>
      have hpost := login_none (w := w) now ip rfl hset s.store hrecord
      have hempty : recordAt (userKey (msg.get "unionid")) s = ∅ := Store.fieldsAt_of_none hrecord
      cases hreach : reaches w s ⟨now, .login ip msg⟩ with
      | true =>
        obtain ⟨o', hs', hday⟩ := (if_pos (reaches_login.mp hreach)).mp hpost
        have hk := storable_of_reaches hset hreach
        refine sameDay_recordAt hs' ?_
        rw [expected_of_reaches (k := userKey (msg.get "unionid")) hreach rfl hk, hempty]
        exact hday
      | false =>
        have hnone := (if_neg fun h =>
          Bool.false_ne_true (hreach.symm.trans (reaches_login.mpr h))).mp hpost
        have hempty' : recordAt (userKey (msg.get "unionid")) (step w s ⟨now, .login ip msg⟩) = ∅ :=
          Store.fieldsAt_of_none hnone
        rw [expected_of_not_reaches hreach, hempty, hempty']
        exact .refl ∅

/-- What an update does to the fields of the day. -/
theorem updateUser_step {now : ℕ} {msg : UpdateMsg} {h : ∀ f ∈ dayNames, f ∉ msg.userData.fields}
    (hk : storableKey (userKey (msg.userData.get "unionid")))
    (hsafe : Safe s ⟨now, .updateUser msg h⟩) :
    SameDay (expected w (userKey (msg.userData.get "unionid")) s ⟨now, .updateUser msg h⟩)
      (recordAt (userKey (msg.userData.get "unionid")) (step w s ⟨now, .updateUser msg h⟩)) := by
  cases htrue : (msg.userData.get "unionid").toBool with
  | false =>
      have hreach : reaches w s ⟨now, .updateUser msg h⟩ = false := htrue
      rw [expected_of_not_reaches hreach]
      refine .of_get fun f _ => ?_
      simp [recordAt, step, Arrival.handler, serviceUpdateUser, htrue, sendErrno]
  | true =>
      have hreach : reaches w s ⟨now, .updateUser msg h⟩ = true := htrue
      obtain ⟨user, hcopy, hpost⟩ := serviceUpdateUser_holds (w := w) now hk rfl htrue
        s.store (Copy.refl _)
      rw [expected_of_reaches (k := userKey (msg.userData.get "unionid")) hreach rfl hk]
      have htime : user.get "getRedPackTime" =
          (recordAt (userKey (msg.userData.get "unionid")) s).get "getRedPackTime" :=
        (hcopy _ (by decide)).trans (copyAfterRollover_get_of_notMem (by decide))
      have hrefused : refused now msg user =
          refused now msg (recordAt (userKey (msg.userData.get "unionid")) s) := by
        unfold refused coolDownOver
        rw [htime]
      split at hpost
      · exact sameDay_recordAt hpost.2 (.refl _)
      · rename_i haccepted
        have hdue : rolloverDue now (recordAt (userKey (msg.userData.get "unionid")) s) = false := by
          cases hd : rolloverDue now (recordAt (userKey (msg.userData.get "unionid")) s) with
          | false => rfl
          | true => exact absurd (hrefused.trans (hsafe.2 htrue hd)) haccepted
        refine sameDay_recordAt hpost.2 ?_
        rw [afterRollover, if_neg (by simp [hdue])]
        have hcopyo : copyAfterRollover now (s.store.fieldsAt (userKey (msg.userData.get "unionid"))) =
            recordAt (userKey (msg.userData.get "unionid")) s :=
          if_neg fun hd => Bool.false_ne_true (hdue.symm.trans hd)
        rw [hcopyo] at hcopy
        refine (SameDay.of_copy hcopy).trans (.of_get fun f hf => ?_)
        refine Fields.get_merge_of_notMem fun hmem => ?_
        rcases mem_of_mem_storedData hmem with hnamed | hnamed
        · exact h f hf hnamed
        · clear hmem
          revert f
          decide

/-- **One request**: the date and the count are those before it, or those of a roll-over. -/
theorem step_sameDay (hinv : Inv s.store) (hsafe : Safe s l) (k : String) :
    SameDay (expected w k s l) (recordAt k (step w s l)) := by
  have hsame : (step w s l).store.record k = s.store.record k → rollsOver w k s l = false →
      SameDay (expected w k s l) (recordAt k (step w s l)) := by
    intro hrecord hno
    rw [expected, hno, if_neg Bool.false_ne_true, recordAt, recordAt,
      Store.fieldsAt_congr hrecord]
    exact .refl _
  obtain ⟨now, request⟩ := l
  cases request with
  | login ip msg =>
      by_cases hu : userKey (msg.get "unionid") = k
      · subst hu
        exact login_step hinv hsafe
      · exact hsame (login_record_of_ne hinv.keyed hu)
          (by simp [rollsOver, Arrival.key, Arrival.unionid, hu])
  | updateUser msg h =>
      by_cases hu : userKey (msg.userData.get "unionid") = k
      · by_cases hk : storableKey k
        · subst hu
          exact updateUser_step hk hsafe
        · exact hsame ((Store.record_of_not_storable hk).trans
            (Store.record_of_not_storable hk).symm) (by simp [rollsOver, hk])
      · exact hsame (serviceUpdateUser_record_of_ne hu _)
          (by simp [rollsOver, Arrival.key, Arrival.unionid, hu])

/-- After a roll-over the record has the date, and one login day more. -/
theorem step_of_rollsOver (hinv : Inv s.store) (hsafe : Safe s l) (h : rollsOver w k s l = true) :
    (recordAt k (step w s l)).get "lastLoginTime" = .str (Calendar.date l.now) := by
  have hday := step_sameDay (w := w) hinv hsafe k
  have hdue : rolloverDue l.now (recordAt k s) = true := by
    unfold rollsOver at h
    simp only [Bool.and_eq_true] at h
    exact h.2
  rw [expected, if_pos h] at hday
  exact hday.last.trans (afterRollover_of_due hdue).1

/-- A request without roll-over keeps the fields of the day. -/
theorem step_of_not_rollsOver (hinv : Inv s.store) (hsafe : Safe s l)
    (h : rollsOver w k s l = false) : SameDay (recordAt k s) (recordAt k (step w s l)) := by
  have hday := step_sameDay (w := w) hinv hsafe k
  rwa [expected, h, if_neg Bool.false_ne_true] at hday

/-- Every request keeps the dates texts and the records under their own keys. -/
theorem inv_step (hinv : Inv s.store) (hsafe : Safe s l) : Inv (step w s l).store := by
  refine ⟨(keyed_handler l).run hinv.keyed, fun k => ?_⟩
  cases hroll : rollsOver w k s l with
  | true => exact Or.inr ⟨_, step_of_rollsOver hinv hsafe hroll⟩
  | false =>
      have hday := step_of_not_rollsOver hinv hsafe hroll
      exact (hinv.dated k).imp (fun h => hday.last.trans h) fun ⟨t, ht⟩ => ⟨t, hday.last.trans ht⟩

/-- Only a roll-over counts a day. -/
theorem rollsOver_of_countsDay (hinv : Inv s.store) (hsafe : Safe s l)
    (h : countsDay w k s l = true) : rollsOver w k s l = true := by
  cases hroll : rollsOver w k s l with
  | true => rfl
  | false =>
      have hday := step_of_not_rollsOver hinv hsafe hroll
      rw [countsDay, decide_eq_true_iff, hday.count] at h
      exact absurd h (lt_irrefl _)

/-- Only a roll-over clears a counter. -/
theorem rollsOver_of_clears (hinv : Inv s.store) (hsafe : Safe s l)
    (h : clears w k s l = true) : rollsOver w k s l = true := by
  cases hroll : rollsOver w k s l with
  | true => rfl
  | false =>
      have hday := step_of_not_rollsOver hinv hsafe hroll
      obtain ⟨f, hf, hcleared⟩ := List.any_eq_true.mp h
      rw [hday.today f hf, Bool.and_eq_true, decide_eq_true_iff, decide_eq_true_iff] at hcleared
      exact absurd hcleared.2 hcleared.1

/-! ## All requests -/

/-- The day `d` is over, or the user under `k` has been rolled over on it. -/
def Done (k : String) (d : ℕ) (s : State) : Prop :=
  (Calendar.day s.clock = d ∧ (recordAt k s).get "lastLoginTime" = .str (Calendar.dateText d)) ∨
    d < Calendar.day s.clock

/-- On the stored date there is no roll-over. -/
theorem not_rollsOver_of_date
    (h : (recordAt k s).get "lastLoginTime" = .str (Calendar.date l.now)) :
    rollsOver w k s l = false := by
  have hdue : rolloverDue l.now (recordAt k s) = false :=
    (rolloverDue_eq_false (Or.inr ⟨_, h⟩)).mpr h
  simp [rollsOver, hdue]

/-- After a roll-over the day is done. -/
theorem done_of_rollsOver {d : ℕ} (hinv : Inv s.store) (hsafe : Safe s l)
    (h : onDay d (rollsOver w k) s l = true) : Done k d (step w s l) := by
  rw [onDay, Bool.and_eq_true, beq_iff_eq] at h
  exact Or.inl ⟨h.1, by rw [step_of_rollsOver hinv hsafe h.2, Calendar.date, h.1]⟩

/-- A day that is done stays done. -/
theorem Done.step {d : ℕ} (hinv : Inv s.store) (hdone : Done k d s) (hsafe : Safe s l) :
    Done k d (step w s l) := by
  have hmono : Calendar.day s.clock ≤ Calendar.day l.now := Calendar.day_mono hsafe.1
  rcases hdone with ⟨hclock, hlast⟩ | hlater
  · rcases hmono.lt_or_eq with hlt | heq
    · exact Or.inr (hclock ▸ hlt)
    · have hdate : Calendar.dateText d = Calendar.date l.now := by
        rw [Calendar.date, ← heq, hclock]
      rw [hdate] at hlast
      have hday := step_of_not_rollsOver hinv hsafe (not_rollsOver_of_date (w := w) hlast)
      exact Or.inl ⟨heq.symm.trans hclock, by rw [hday.last, hlast, hdate]⟩
  · exact Or.inr (hlater.trans_le hmono)

/-- On a day that is done there is no roll-over. -/
theorem Done.not_rollsOver {d : ℕ} (hdone : Done k d s) (hsafe : Safe s l) :
    onDay d (rollsOver w k) s l = false := by
  have hmono : Calendar.day s.clock ≤ Calendar.day l.now := Calendar.day_mono hsafe.1
  by_cases hd : Calendar.day l.now = d
  · rcases hdone with ⟨-, hlast⟩ | hlater
    · rw [← hd] at hlast
      simp [onDay, not_rollsOver_of_date (w := w) (l := l) hlast]
    · omega
  · simp [onDay, hd]

/-- After an accepted request the record has the date. -/
theorem lastLoginTime_of_accepted (hinv : Inv s.store) (hsafe : Safe s l)
    (h : accepted w s l = true) :
    (recordAt l.key (step w s l)).get "lastLoginTime" = .str (Calendar.date l.now) := by
  cases hroll : rollsOver w l.key s l with
  | true => exact step_of_rollsOver hinv hsafe hroll
  | false =>
      rw [(step_of_not_rollsOver hinv hsafe hroll).last]
      refine (rolloverDue_eq_false (hinv.dated l.key)).mp ?_
      obtain ⟨now, request⟩ := l
      cases request with
      | login ip msg =>
          have hk := storable_of_reaches (w := w) hsafe.2.1 h
          simpa [rollsOver, reaches, h, Arrival.key, Arrival.unionid, hk, recordAt] using hroll
      | updateUser msg hnames =>
          cases htrue : (msg.userData.get "unionid").toBool with
          | false =>
              simp [accepted, Arrival.handler, serviceUpdateUser, htrue, sendErrno] at h
          | true =>
              rw [accepted, Arrival.handler, serviceUpdateUser_reply htrue] at h
              cases hdue : rolloverDue now (recordAt (userKey (msg.userData.get "unionid")) s) with
              | false => exact hdue
              | true =>
                  have hrefused : refused now msg
                      (s.store.fieldsAt (userKey (msg.userData.get "unionid"))) = true :=
                    hsafe.2 htrue hdue
                  simp [hrefused] at h

end Step

/-- An event that only a roll-over brings about happens at most once on a day. -/
theorem countSteps_onDay_le_one {w : World} {k : String} {E : State → Arrival → Bool} {s : State}
    {ls : List Arrival} (hs : Inv s.store) (hrun : Guarded (step w) Safe s ls) (d : ℕ)
    (hE : ∀ s l, Inv s.store → Safe s l → E s l = true → rollsOver w k s l = true) :
    countSteps (step w) (onDay d E) s ls ≤ 1 := by
  have hrolls : ∀ s l, Inv s.store → Safe s l → onDay d E s l = true → onDay d (rollsOver w k) s l = true := by
    intro s l hs hsafe h
    rw [onDay, Bool.and_eq_true] at h ⊢
    exact ⟨h.1, hE s l hs hsafe h.2⟩
  refine countSteps_le_one (I := fun s => Inv s.store) (Q := Done k d) hrun
    (fun s l hs hsafe => inv_step hs hsafe)
    (fun s l hs hsafe h => done_of_rollsOver hs hsafe (hrolls s l hs hsafe h))
    (fun s l hs hdone hsafe => hdone.step hs hsafe) (fun s l hs hdone hsafe => ?_) hs
  rw [← Bool.not_eq_true]
  intro h
  exact Bool.false_ne_true ((hdone.not_rollsOver hsafe).symm.trans (hrolls s l hs hsafe h))

/-- **At most one roll-over per user and date**, in every run that starts with records under their
own keys and dates that are texts, in which no stale copy is written and the numbers are plain: on each date at
most one request clears a counter of the day, at most one raises `loginDayCount`, and at most one makes the
roll-over at all; and after every request that is answered with `errno` 1000 the stored `lastLoginTime` is the
date. -/
theorem rollover_once (w : World) {s : State} (hs : Inv s.store) {ls : List Arrival}
    (hrun : Guarded (step w) (fun s l => Safe s l ∧ Plain s l) s ls) (k : String) (d : ℕ) :
    countSteps (step w) (onDay d (clears w k)) s ls ≤ 1 ∧
      countSteps (step w) (onDay d (countsDay w k)) s ls ≤ 1 ∧
      countSteps (step w) (onDay d (rollsOver w k)) s ls ≤ 1 ∧
      ∀ pre l post, ls = pre ++ l :: post → accepted w (pre.foldl (step w) s) l = true →
        (recordAt l.key (step w (pre.foldl (step w) s) l)).get "lastLoginTime" =
          .str (Calendar.date l.now) := by
  have hrun : Guarded (step w) Safe s ls := hrun.mono fun _ _ h => h.1
  refine ⟨?_, ?_, ?_, ?_⟩
  · exact countSteps_onDay_le_one hs hrun d fun s l hs hsafe h => rollsOver_of_clears hs hsafe h
  · exact countSteps_onDay_le_one hs hrun d fun s l hs hsafe h => rollsOver_of_countsDay hs hsafe h
  · exact countSteps_onDay_le_one hs hrun d fun s l hs hsafe h => h
  · rintro pre l post rfl hacc
    obtain ⟨hpre, hrest⟩ := hrun.append
    exact lastLoginTime_of_accepted
      (hpre.invariant (I := fun s => Inv s.store) (fun s l hs hsafe => inv_step hs hsafe) hs) hrest.1 hacc

/-! ## Two roll-overs on one day -/

/-- The day of the samples. -/
def sampleTime : ℕ := 1600000000

/-- User `a` logs in. -/
def sampleLogin : Request :=
  .login (.str "10.0.0.7") ⟨Fields.ofList [("unionid", .str "a"), ("nickname", .str "a")],
    Fields.encodes_iff.mp rfl⟩

/-- An update of the score. -/
def sampleUpdate : Request :=
  .updateUser ⟨⟨Fields.ofList [("unionid", .str "a"), ("score", .num 40)],
    Fields.encodes_iff.mp rfl⟩, none⟩ (by decide)

/-- The stores before the first request. -/
def start : State := ⟨0, Store.empty⟩

/-- A login, and two updates on the next day: both count a login day. -/
theorem rollover_repeated :
    ¬ ∀ (w : World) (ls : List Arrival) (k : String) (d : ℕ),
      (ls.map Arrival.now).Pairwise (· ≤ ·) →
        countSteps (step w) (onDay d (countsDay w k)) start ls ≤ 1 := by
  intro h
  have hle := h World.plain
    [⟨sampleTime, sampleLogin⟩, ⟨sampleTime + 86400, sampleUpdate⟩,
      ⟨sampleTime + 86410, sampleUpdate⟩] "u_a" (Calendar.day (sampleTime + 86400)) (by decide)
  exact absurd hle (by decide +kernel)

/-- A record of the day before, with both counters of that day. -/
def yesterdayRecord : Fields :=
  Fields.ofList [("unionid", .str "a"), ("nickname", .str "a"), ("userno", .num 100001), ("score", .num 40),
    ("lastLoginTime", .str (Calendar.date sampleTime)), ("loginDayCount", .num 3),
    ("todayRedPackCount", .num 2), ("todayRechargeVal", .num 600), ("getRedPackTime", .num 0)]

/-- The stores with this record. -/
def yesterday : State := ⟨sampleTime, Store.empty.hset .user "u_a" yesterdayRecord.jsonEncode⟩

/-- The only record of the sample. -/
theorem yesterday_record (k : String) {o : JsonObject} (h : yesterday.store.record k = some o) :
    k = "u_a" ∧ o.fields = yesterdayRecord := by
  rw [yesterday, Store.record_hset] at h
  split at h
  · rename_i hk
    exact ⟨hk.1, Fields.fields_of_jsonEncode h⟩
  · cases h

/-- It is stored under its own key, with a date that is a text. -/
theorem yesterday_inv : Inv yesterday.store := by
  refine ⟨fun k o h => ?_, fun k => ?_⟩
  · obtain ⟨rfl, ho⟩ := yesterday_record k h
    rw [JsonObject.get, ho]
    rfl
  · cases hrecord : yesterday.store.record k with
    | none =>
        rw [Store.fieldsAt_of_none hrecord]
        exact Or.inl rfl
    | some o =>
        rw [Store.fieldsAt_of_record hrecord, (yesterday_record k hrecord).2]
        exact Or.inr ⟨Calendar.date sampleTime, rfl⟩

/-- Two logins and an update on the next day. -/
def sampleRun : List Arrival :=
  [⟨sampleTime + 86400, sampleLogin⟩, ⟨sampleTime + 86405, sampleLogin⟩, ⟨sampleTime + 86410, sampleUpdate⟩]

/-- The login of the next day clears the counters and counts the day, once. -/
theorem rollover_by_login :
    countSteps (step World.plain)
        (onDay (Calendar.day (sampleTime + 86400)) (clears World.plain "u_a")) yesterday sampleRun = 1 ∧
      countSteps (step World.plain)
        (onDay (Calendar.day (sampleTime + 86400)) (clears World.plain "u_a")) yesterday sampleRun ≤ 1 :=
  ⟨by decide +kernel,
    (rollover_once World.plain yesterday_inv
      (by decide +kernel : Guarded (step World.plain) (fun s l => Safe s l ∧ Plain s l) yesterday sampleRun) "u_a"
      (Calendar.day (sampleTime + 86400))).1⟩

end DailyRollover

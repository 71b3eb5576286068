/-
# Red packets of one user

A user gets at most 120 fen at a time, and not before 280 seconds have passed since the stored
`getRedPackTime`.  Two requests hand out red packets, and both check this:
`service_updateUser.php` with a new `redPackVal`, and the command `cmd_addRedpack` of
`service_gateWay.php`.  But the command never stores the time: it sets
`$userData['getRedPackTime']` where its data is called `$updateData`.

So 280 seconds lie between the red packets of a user in every run in which the command adds
nothing to an account (`redpacks_limited`), and not in general (`redpacks_in_a_row`).  Both that and
the bound of 120 fen are about numbers that PHP adds without rounding (`Plain`).
-/
import DoudizhuBackend.GuardedRun
import DoudizhuBackend.PlainNumbers
import DoudizhuBackend.RequestEffects
import Mathlib.Tactic.Linarith

open Php GameData GameServer

namespace RedPackLimiter

/-- The requests that hand out red packets. -/
inductive Request where
  | addRedpack (msg : GatewayMsg) (h : isCmd msg "cmd_addRedpack" = true)
  | updateUser (msg : UpdateMsg) (h : msg.userData.isset "redPackVal" = true)

/-- A request and the time at which it is handled. -/
structure Arrival where
  now : ℕ
  request : Request

/-- What the server runs for the request. -/
def Arrival.handler (l : Arrival) : Handler Reply :=
  match l.request with
  | .addRedpack msg _ => serviceGateWay l.now msg
  | .updateUser msg _ => serviceUpdateUser l.now msg

section Run

variable (w : World) (k : String)

/-- The request is executed as a whole. -/
def step (s : Store) (l : Arrival) : Store := (l.handler.run (exec w) s).2

/-- The request is answered with `errno` 1000. -/
def accepted (s : Store) (l : Arrival) : Bool :=
  (l.handler.run (exec w) s).1.errno? == some 1000

/-- The red packets on the account under the key `k`. -/
def redPackVal (s : Store) : ℚ := ((s.fieldsAt k).get "redPackVal").toNum

/-- What a request adds to the account. -/
def raise (s : Store) (l : Arrival) : ℚ := redPackVal k (step w s l) - redPackVal k s

/-- The time of a request that is accepted and raises the account. -/
def grant (s : Store) (l : Arrival) : Option ℕ :=
  if accepted w s l ∧ 0 < raise w k s l then some l.now else none

/-- No red packet is handed out without its time being stored: a `cmd_addRedpack` that the
limiter lets pass has nothing to add. -/
def Stamped (s : Store) (l : Arrival) : Prop :=
  match l.request with
  | .addRedpack msg _ =>
      coolDownOver l.now (s.fieldsAt (userKey (msg.fields.get "unionid"))) = true →
        (cashVal msg).toNum ≤ 0
  | .updateUser _ _ => True

instance (s : Store) (l : Arrival) : Decidable (Stamped s l) := by
  unfold Stamped; split <;> infer_instance

/-- The numbers in the records and in the request are plain. -/
def Plain (s : Store) (l : Arrival) : Prop :=
  s.Plain ∧
    match l.request with
    | .addRedpack msg _ => msg.Plain
    | .updateUser msg _ => msg.Plain

instance (s : Store) (l : Arrival) : Decidable (Plain s l) := by
  unfold Plain; split <;> infer_instance

end Run

/-! ## What a request does to the account -/

/-- What a request does to the account under `k`: nothing; or it adds at most 120 fen, after the
time, and stores the time; or it is a `cmd_addRedpack`, which does not store it. -/
inductive Outcome (k : String) (l : Arrival) (s s' : Store) : Prop where
  | same (hval : (s'.fieldsAt k).get "redPackVal" = (s.fieldsAt k).get "redPackVal")
      (htime : (s'.fieldsAt k).get "getRedPackTime" = (s.fieldsAt k).get "getRedPackTime")
  | stamped (hcool : coolDownOver l.now (s.fieldsAt k) = true)
      (hval : redPackVal k s' ≤ redPackVal k s + 120)
      (htime : (s'.fieldsAt k).get "getRedPackTime" = .num l.now)
  | unstamped (msg : GatewayMsg) (h : isCmd msg "cmd_addRedpack" = true)
      (hmsg : l.request = .addRedpack msg h) (hkey : userKey (msg.fields.get "unionid") = k)
      (hcool : coolDownOver l.now (s.fieldsAt k) = true)
      (hval : redPackVal k s' = redPackVal k s + (cashVal msg).toNum)
      (htime : (s'.fieldsAt k).get "getRedPackTime" = (s.fieldsAt k).get "getRedPackTime")

section Cases

variable {w : World} {k : String} {s s' : Store} {l : Arrival} {now : ℕ}

theorem Outcome.of_record (h : s'.record k = s.record k) : Outcome k l s s' := by
  have hfields := Store.fieldsAt_congr h
  exact .same (by rw [hfields]) (by rw [hfields])

theorem coolDownOver_congr {user o : Fields}
    (h : user.get "getRedPackTime" = o.get "getRedPackTime") :
    coolDownOver now user = coolDownOver now o := by
  rw [coolDownOver, h, coolDownOver]

/-- The stored red packets of an update are cut. -/
theorem storedData_redPackVal_le (now : ℕ) {msg : UpdateMsg} (hset : msg.userData.isset "redPackVal" = true)
    (user : Fields) :
    ((user.merge (storedData now msg user)).get "redPackVal").toNum ≤
      (user.get "redPackVal").toNum + 120 := by
  rw [Fields.get_merge]
  split
  · rw [storedData_get_of_ne (by decide), acceptedData, if_pos hset, cappedRedPack,
      Fields.get_set_of_ne (by decide)]
    split
    · simp
    · rename_i hle
      linarith [not_lt.mp hle]
  · linarith

theorem storedData_getRedPackTime {msg : UpdateMsg} (hset : msg.userData.isset "redPackVal" = true)
    (user : Fields) :
    (user.merge (storedData now msg user)).get "getRedPackTime" = .num now := by
  have htime : (storedData now msg user).get "getRedPackTime" = .num now := by
    rw [storedData_get_of_ne (by decide), acceptedData, if_pos hset, cappedRedPack,
      Fields.get_set_self]
  rw [Fields.get_merge_of_mem (Fields.mem_of_get_ne_null (by simp [htime])), htime]

theorem updateUser_outcome (hk : storableKey k) {msg : UpdateMsg}
    (hset : msg.userData.isset "redPackVal" = true)
    (hu : userKey (msg.userData.get "unionid") = k)
    (htrue : (msg.userData.get "unionid").toBool = true) (s : Store) :
    Outcome k ⟨now, .updateUser msg hset⟩ s (step w s ⟨now, .updateUser msg hset⟩) := by
  obtain ⟨user, hcopy, hpost⟩ := serviceUpdateUser_holds (w := w) now hk hu htrue s
    (Copy.refl (s.fieldsAt k))
  have hval : user.get "redPackVal" = (s.fieldsAt k).get "redPackVal" :=
    (hcopy _ (by decide)).trans (copyAfterRollover_get_of_notMem (by decide))
  have htime : user.get "getRedPackTime" = (s.fieldsAt k).get "getRedPackTime" :=
    (hcopy _ (by decide)).trans (copyAfterRollover_get_of_notMem (by decide))
  split at hpost
  · exact .same ((hpost.2 _ (by decide)).trans (afterRollover_get_of_notMem (by decide)))
      ((hpost.2 _ (by decide)).trans (afterRollover_get_of_notMem (by decide)))
  · rename_i hrefused
    refine .stamped ?_ ?_ ((hpost.2 _ (by decide)).trans (storedData_getRedPackTime hset user))
    · rw [← coolDownOver_congr htime]
      simpa [refused, hset] using hrefused
    · have hle := storedData_redPackVal_le now hset user
      rwa [← hpost.2 _ (by decide), hval] at hle

/-- The red packets are among the data of a `cmd_addRedpack`, the time is not. -/
theorem redpackData_get (msg : GatewayMsg) (user : Fields) :
    (user.merge (redpackData msg user)).get "redPackVal" =
        .num ((user.get "redPackVal").toNum + (cashVal msg).toNum) ∧
      (user.merge (redpackData msg user)).get "getRedPackTime" = user.get "getRedPackTime" := by
  constructor
  · rw [Fields.get_merge_of_mem (by simp [redpackData, Fields.mem_ofList])]
    simp [redpackData, Fields.get_ofList_cons]
  · exact Fields.get_merge_of_notMem (by simp [redpackData, Fields.mem_ofList])

/-- The last writes of a `cmd_addRedpack`. -/
theorem storeRedpack_holds (now : ℕ) (hk : storableKey k) {msg : GatewayMsg} {user o : Fields}
    (hu : userKey (msg.fields.get "unionid") = k) (hnull : msg.fields.get "unionid" ≠ .null)
    (huser : user.Encodable) :
    Prog.Triple (exec w) (Holds k o) (storeRedpack now msg user) fun _ =>
      Holds k ((user.setDefault "totalGetRedPackVal" (.num 0)).merge
        (redpackData msg (user.setDefault "totalGetRedPackVal" (.num 0)))) := by
  have htarget : ∀ user, Targets k (redpackData msg user) := by
    intro user
    rw [Targets, Fields.isset_eq_true, redpackData_unionid]
    exact ⟨hnull, hu⟩
  unfold storeRedpack
  refine .bind (updateUser2_holds hk (huser.setDefault rfl) (redpackData_encodable msg _)) fun _ => ?_
  rw [if_pos (htarget _)]
  refine .bind (fun s hs => hs.of_record (logScore_record w s _ _ k)) fun _ => .ret fun s hs => hs

theorem addRedpack_outcome (hk : storableKey k) {msg : GatewayMsg}
    (hcmd : isCmd msg "cmd_addRedpack" = true) (hu : userKey (msg.fields.get "unionid") = k)
    (htrue : (msg.fields.get "unionid").toBool = true) (s : Store) :
    Outcome k ⟨now, .addRedpack msg hcmd⟩ s (step w s ⟨now, .addRedpack msg hcmd⟩) := by
  have hnull : msg.fields.get "unionid" ≠ .null := by
    intro h
    rw [h] at htrue
    cases htrue
  simp only [step, Arrival.handler, serviceGateWay, htrue, hcmd, if_true, Prog.run_bind]
  obtain ⟨hs, huser, hcopy⟩ := getUser_holds (w := w) (u := msg.fields.get "unionid") s
    (Copy.refl (s.fieldsAt k))
  replace hcopy := hcopy hu
  obtain ⟨s1, hsame, hrun⟩ := addRedpack_run w
    ((getUser (msg.fields.get "unionid")).run (exec w) s).2 now msg
    ((getUser (msg.fields.get "unionid")).run (exec w) s).1
  rw [hrun]
  split
  · rename_i hcool
    have hpost := storeRedpack_holds (w := w) now hk hu hnull huser s1
      (hs.of_record (hsame.record k))
    obtain ⟨hval, htime⟩ := redpackData_get msg
      (((getUser (msg.fields.get "unionid")).run (exec w) s).1.setDefault
        "totalGetRedPackVal" (.num 0))
    rw [Fields.get_setDefault, if_neg (by decide), hcopy _ (by decide)] at hval htime
    refine .unstamped msg hcmd rfl hu ?_ ?_ ((hpost _ (by decide)).trans htime)
    · rwa [coolDownOver_congr (hcopy _ (by decide))] at hcool
    · rw [redPackVal, hpost _ (by decide), hval]
      rfl
  · exact .of_record ((hsame.record k).trans (getUser_record w s _ k))

/-- Requests for other users leave the account alone. -/
theorem addRedpack_record_of_ne {msg : GatewayMsg} (hcmd : isCmd msg "cmd_addRedpack" = true)
    (hu : userKey (msg.fields.get "unionid") ≠ k) (s : Store) :
    (step w s ⟨now, .addRedpack msg hcmd⟩).record k = s.record k := by
  simp only [step, Arrival.handler, serviceGateWay, hcmd, if_true]
  split
  · rw [Prog.run_bind]
    obtain ⟨s1, hsame, hrun⟩ := addRedpack_run w
      ((getUser (msg.fields.get "unionid")).run (exec w) s).2 now msg
      ((getUser (msg.fields.get "unionid")).run (exec w) s).1
    rw [hrun]
    split
    · unfold storeRedpack
      simp only [Prog.run_bind]
      refine ((logScore_record w _ _ _ k).trans ?_).trans
        ((hsame.record k).trans (getUser_record w s _ k))
      rw [updateUser2_record, if_neg]
      rintro ⟨-, hkey, -⟩
      rw [redpackData_unionid] at hkey
      exact hu hkey.symm
    · exact (hsame.record k).trans (getUser_record w s _ k)
  · rfl

/-- **One request** has one of the three outcomes for each account. -/
theorem step_outcome (w : World) (k : String) (s : Store) (l : Arrival) :
    Outcome k l s (step w s l) := by
  by_cases hk : storableKey k
  · obtain ⟨now, request⟩ := l
    cases request with
    | addRedpack msg hcmd =>
        by_cases hu : userKey (msg.fields.get "unionid") = k
        · cases htrue : (msg.fields.get "unionid").toBool with
          | true => exact addRedpack_outcome hk hcmd hu htrue s
          | false =>
              refine .of_record ?_
              simp [step, Arrival.handler, serviceGateWay, htrue, sendErrno]
        · exact .of_record (addRedpack_record_of_ne hcmd hu s)
    | updateUser msg hset =>
        by_cases hu : userKey (msg.userData.get "unionid") = k
        · cases htrue : (msg.userData.get "unionid").toBool with
          | true => exact updateUser_outcome hk hset hu htrue s
          | false =>
              refine .of_record ?_
              simp [step, Arrival.handler, serviceUpdateUser, htrue, sendErrno]
        · exact .of_record (serviceUpdateUser_record_of_ne hu s)
  · -- no record can be stored under such a key
    exact .of_record ((Store.record_of_not_storable hk).trans (Store.record_of_not_storable hk).symm)

/-! ## All requests -/

/-- The red packet of a `cmd_addRedpack` is cut. -/
theorem cashVal_le (msg : GatewayMsg) : (cashVal msg).toNum ≤ 120 := by
  unfold cashVal cappedAt
  split
  · exact le_refl _
  · rename_i h
    cases hv : msg.fields.get "cashVal" with
    | null => norm_num
    | bool b => cases b <;> norm_num [Value.toNum]
    | num q => simpa [hv] using h
    | str t => simpa [hv, Value.looseLt] using h
    | bytes b => simpa [hv, Value.looseLt] using h

theorem raise_le (w : World) (k : String) (s : Store) (l : Arrival) : raise w k s l ≤ 120 := by
  unfold raise
  cases step_outcome w k s l with
  | same hval htime => rw [redPackVal, hval, redPackVal]; norm_num
  | stamped hcool hval htime => linarith
  | unstamped msg h hmsg hkey hcool hval htime => linarith [cashVal_le msg]

/-- A red packet at the time `t` leaves a stored time that is not before `t`. -/
def StampedSince (k : String) (t : ℕ) (s : Store) : Prop :=
  (t : ℚ) ≤ ((s.fieldsAt k).get "getRedPackTime").toNum

theorem coolDownOver_iff {user : Fields} :
    coolDownOver now user = true ↔ (user.get "getRedPackTime").toNum + 280 < now := by
  rw [coolDownOver, decide_eq_true_iff, lt_sub_iff_add_lt, add_comm]

/-- A red packet is handed out in time, and its time is stored. -/
theorem grant_stamped {t : ℕ} (hstamped : Stamped s l) (h : grant w k s l = some t) :
    t = l.now ∧ coolDownOver l.now (s.fieldsAt k) = true ∧ StampedSince k t (step w s l) := by
  unfold grant at h
  split at h
  · rename_i hgrant
    cases h
    have hraise : 0 < redPackVal k (step w s l) - redPackVal k s := hgrant.2
    cases step_outcome w k s l with
    | same hval htime =>
        rw [redPackVal, hval, redPackVal, sub_self] at hraise
        exact absurd hraise (lt_irrefl 0)
    | stamped hcool hval htime =>
        refine ⟨rfl, hcool, ?_⟩
        rw [StampedSince, htime]
        exact le_refl _
    | unstamped msg h hmsg hkey hcool hval htime =>
        simp only [Stamped, hmsg, hkey] at hstamped
        have := hstamped hcool
        linarith
  · cases h

/-- Stored times never go back. -/
theorem StampedSince.step {t : ℕ} (h : StampedSince k t s) (l : Arrival) :
    StampedSince k t (step w s l) := by
  unfold StampedSince at h ⊢
  cases step_outcome w k s l with
  | same hval htime => rwa [htime]
  | stamped hcool hval htime =>
      rw [coolDownOver_iff] at hcool
      rw [htime, Value.toNum_num]
      linarith
  | unstamped msg h hmsg hkey hcool hval htime => rwa [htime]

end Cases

/-- **The limiter**, on plain numbers: no accepted request raises the account by more than 120 fen; and in every
run of requests of which no `cmd_addRedpack` hands out a red packet, any two accepted requests that raise
the account are more than 280 seconds apart. -/
theorem redpacks_limited (w : World) (k : String) :
    (∀ s l, Plain s l → accepted w s l → raise w k s l ≤ 120) ∧
      ∀ s ls, Guarded (step w) (fun s l => Stamped s l ∧ Plain s l) s ls →
        (eventValues (step w) (grant w k) s ls).Pairwise fun t t' => t + 280 < t' := by
  refine ⟨fun s l _ _ => raise_le w k s l, fun s ls hplain => ?_⟩
  have hrun : Guarded (step w) Stamped s ls := hplain.mono fun _ _ h => h.1
  refine eventValues_pairwise (B := StampedSince k) hrun ?_ ?_ ?_
  · intro s l t hstamped hgrant
    exact (grant_stamped hstamped hgrant).2.2
  · intro s l t hsince _
    exact hsince.step l
  · intro s l t t' hsince hstamped hgrant
    obtain ⟨rfl, hcool, -⟩ := grant_stamped hstamped hgrant
    rw [coolDownOver_iff] at hcool
    have hlt : (t : ℚ) + 280 < l.now := by
      unfold StampedSince at hsince
      linarith
    exact_mod_cast hlt

/-! ## Two red packets in a row -/

/-- The day of the samples. -/
def sampleTime : ℕ := 1600000000

theorem sampleUser_encodable :
    (Fields.ofList [("unionid", .str "a"), ("nickname", .str "a")]).Encodable :=
  Fields.encodes_iff.mp rfl

/-- The stores after the user `a` has registered. -/
def sampleStore : Store :=
  ((Login.register sampleTime (.str "10.0.0.7")
    ⟨Fields.ofList [("unionid", .str "a"), ("nickname", .str "a")],
      sampleUser_encodable⟩).run (exec World.plain) Store.empty).2

/-- A red packet of 100 fen by `cmd_addRedpack`. -/
def samplePacket : GatewayMsg where
  fields := ⟨Fields.ofList
    [("unionid", .str "a"), ("cmd", .str "cmd_addRedpack"), ("cashVal", .num 100),
     ("coinVal", .num 0), ("playTurn", .num 1)], Fields.encodes_iff.mp rfl⟩
  roomResult := ⟨[], .null⟩

/-- Two red packets within a second. -/
theorem redpacks_in_a_row :
    ¬ ∀ (w : World) (k : String) (s : Store) (ls : List Arrival),
      (eventValues (step w) (grant w k) s ls).Pairwise fun t t' => t + 280 < t' := by
  intro h
  have hpair := h World.plain "u_a" sampleStore
    [⟨sampleTime + 300, .addRedpack samplePacket rfl⟩,
      ⟨sampleTime + 301, .addRedpack samplePacket rfl⟩]
  exact absurd hpair (by decide +kernel)

/-- An update of the red packets to a value. -/
def sampleUpdate (fen : ℚ) : UpdateMsg where
  userData := ⟨Fields.ofList [("unionid", .str "a"), ("redPackVal", .num fen)],
    Fields.encodes_iff.mp rfl⟩
  roomResult := none

/-- Three updates, the second of which comes too early. -/
def sampleRun : List Arrival :=
  [⟨sampleTime + 300, .updateUser (sampleUpdate 100) rfl⟩,
    ⟨sampleTime + 400, .updateUser (sampleUpdate 200) rfl⟩,
    ⟨sampleTime + 600, .updateUser (sampleUpdate 500) rfl⟩]

theorem redpacks_by_update :
    raise World.plain "u_a" sampleStore ⟨sampleTime + 300, .updateUser (sampleUpdate 100) rfl⟩ ≤ 120 ∧
      eventValues (step World.plain) (grant World.plain "u_a") sampleStore sampleRun =
        [sampleTime + 300, sampleTime + 600] ∧
      (eventValues (step World.plain) (grant World.plain "u_a") sampleStore sampleRun).Pairwise
        fun t t' => t + 280 < t' :=
  ⟨(redpacks_limited World.plain "u_a").1 sampleStore _ (by decide +kernel) (by decide +kernel),
    by decide +kernel,
    (redpacks_limited World.plain "u_a").2 sampleStore sampleRun (by decide +kernel)⟩

end RedPackLimiter

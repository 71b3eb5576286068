/-
# Concurrent exchanges of one balance

`getExchangeCode.php` reads the user's record, checks the balance, asks the back office for a
code, reads the record again and writes it back with the balance *it has checked* minus the
amount.  This file runs any number of such requests of one user against each other, in any
interleaving of their single commands, with no other writer.

What counts is the code: a request that has one will be answered with it, whether or not it has been paid
for.  Two requests that check the same balance both obtain a code, and only one of them is paid for
(`exchange_overspent`).  If a request starts only while no other one is between its check and
its write (`NonOverlapping`), the codes handed out never cost more than the balance, and the
stored balance is what is left (`exchange_within_balance`).
-/
import DoudizhuBackend.CommandPool
import DoudizhuBackend.UserRecords
import Mathlib.Algebra.Order.BigOperators.Group.Finset
import Mathlib.Data.Fintype.Basic
import Mathlib.Tactic.Linarith

open Php GameData Players

namespace Exchange

/-! ## The amounts -/

/-- The amount of a request. -/
def money (m : JsonObject) : ℚ := (m.get "redPackMoney").toNum

/-- An allowed amount is one of the three numbers, or the JSON value `true`. -/
theorem amount_cases {v : Value} (h : amountAllowed v = true) :
    v.toNum = 600 ∨ v.toNum = 1000 ∨ v.toNum = 1500 ∨ v = .bool true := by
  unfold amountAllowed at h
  cases v with
  | null => revert h; decide +kernel
  | bool a =>
      cases a with
      | true => simp
      | false => revert h; decide +kernel
  | num q => simp_all [Value.looseEq, or_assoc]
  | str s => simp_all [Value.looseEq, or_assoc]
  | bytes b => simp_all [Value.looseEq, or_assoc]

theorem amount_integral {v : Value} (h : amountAllowed v = true) : ∃ n : ℤ, v.toNum = n := by
  rcases amount_cases h with h | h | h | rfl
  · exact ⟨600, by rw [h]; norm_num⟩
  · exact ⟨1000, by rw [h]; norm_num⟩
  · exact ⟨1500, by rw [h]; norm_num⟩
  · exact ⟨1, by decide +kernel⟩

/-- The check `$user['redPackVal'] < $redPackMoney` on a balance of `b`: the amount `true` only
asks for a balance other than `0`. -/
theorem amount_le {b : ℚ} {v : Value} (hlt : Value.looseLt (.num b) v = false)
    (htrue : v = .bool true → b ≠ 0 → 1 ≤ b) (hv : amountAllowed v = true) : v.toNum ≤ b := by
  cases v with
  | null => exact absurd hv (by decide +kernel)
  | bool a =>
      cases a with
      | true =>
          have hb : b ≠ 0 := by
            rintro rfl
            revert hlt
            decide +kernel
          exact htrue rfl hb
      | false => exact absurd hv (by decide +kernel)
  | num q => simpa [Value.looseLt] using hlt
  | str s => simpa [Value.looseLt] using hlt
  | bytes s => simpa [Value.looseLt] using hlt

/-! ## One request -/

/-- A record of the user `u` with balance `b`. -/
structure Account (u : Value) (b : ℚ) (r : Fields) : Prop where
  balance : r.get "redPackVal" = .num b
  key : userKey (r.get "unionid") = userKey u
  isset : r.isset "unionid" = true
  encodable : r.Encodable

/-- The code that `helper_getCode` makes of an answer. -/
def codeOf (ret : RedeemReply) : Value :=
  if Value.looseEq ret.errno (.num 1000) then ret.redeemCode else .str ""

/-- The answer to a command brings a code that is not empty. -/
def Grants : (c : Cmd) → c.Resp → Prop
  | .redeemcode _ _, ret => Value.looseEq (codeOf ret) (.str "") = false
  | _, _ => False

instance (c : Cmd) (r : c.Resp) : Decidable (Grants c r) := by
  cases c <;> first | exact inferInstanceAs (Decidable (_ = _)) | exact isFalse id

/-- What a request of amount `m` does while the balance is `b`: if it gets a code, it writes the record once,
with the amount taken off a balance that covers it; else it writes no record and is not served. -/
def outline (u : Value) (b : ℚ) (m : JsonObject) : Outline Cmd Cmd.Resp Reply where
  ok
    | .hget .user k, r => k = userKey u → ∃ o, Option.join r = some o ∧ Account u b o.fields
    | _, _ => True
  quiet := fun c => c.part ≠ some (.hash .user)
  mark := fun c => ∃ o, c = .hset .user (userKey u) (some o) ∧
    Account u (b - money m) o.fields ∧ money m ≤ b ∧ amountAllowed (m.get "redPackMoney") = true
  after := fun c => c.part ≠ some (.hash .user)
  refused := fun r => r.errno? ≠ some 1000
  done := fun r => r.errno? = some 1000

section Request

variable {u : Value} {b : ℚ} {m : JsonObject}

/-- Reading the record gives the balance. -/
theorem calm_getUser {v : Value} (hv : userKey v = userKey u) :
    (outline u b m).Calm (Account u b) (getUser v) := by
  unfold getUser
  simp only [Prog.call_bind]
  refine ⟨by simp [outline, Cmd.part], fun r hr => ?_⟩
  obtain ⟨o, ho, hacc⟩ := hr hv
  simp only [ho]
  refine Outline.Calm.ite (fun _ => hacc) fun _ => ?_
  refine ⟨by simp [outline, Cmd.part], fun n _ => ⟨by simp [outline, Cmd.part], fun _ _ => ?_⟩⟩
  have hkey : ∀ f, f ≠ "userno" →
      (o.fields.set "userno" (.str (toString n))).get f = o.fields.get f :=
    fun f hf => Fields.get_set_of_ne hf
  refine ⟨?_, ?_, ?_, hacc.encodable.set rfl⟩
  · rw [hkey _ (by decide)]; exact hacc.balance
  · rw [hkey _ (by decide)]; exact hacc.key
  · rw [Fields.isset_eq_true, hkey _ (by decide), ← Fields.isset_eq_true]; exact hacc.isset

/-- Reading the record brings no code. -/
theorem getUser_no_code (v : Value) :
    (getUser v).All (fun c => ∀ r, ¬ Grants c r) fun _ => True := by
  unfold getUser
  simp only [Prog.call_bind]
  refine ⟨fun _ => id, fun r => ?_⟩
  dsimp only
  split
  · trivial
  · exact Prog.All.ite (fun _ => trivial) fun _ => ⟨fun _ => id, fun _ => ⟨fun _ => id, fun _ => trivial⟩⟩

/-- The record after the debit. -/
theorem Account.debit {user r : Fields} {v : Value} (huser : Account u b user)
    (hr : Account u b r) : Account u (b - v.toNum) (r.merge (exchangeData user v)) := by
  have hdata : ∀ f ∈ ["unionid", "redPackVal"], (r.merge (exchangeData user v)).get f =
      (exchangeData user v).get f := by
    intro f hf
    refine Fields.get_merge_of_mem ?_
    rw [exchangeData, Fields.mem_ofList, List.map_append]
    exact List.mem_append_left _ hf
  have hunionid : (r.merge (exchangeData user v)).get "unionid" = user.get "unionid" := by
    rw [hdata _ (by decide), exchangeData_unionid]
  refine ⟨?_, ?_, ?_, ?_⟩
  · rw [hdata _ (by decide), exchangeData_redPackVal, balanceAfter, huser.balance, Value.toNum_num]
  · rw [hunionid]; exact huser.key
  · rw [Fields.isset_eq_true, hunionid, ← Fields.isset_eq_true]; exact huser.isset
  · exact hr.encodable.merge (exchangeData_encodable (huser.encodable "unionid") v)

/-- The part after the code was issued is sure to write the record. -/
theorem sure_debit {now : ℕ} {user : Fields} {code : Value} (huser : Account u b user)
    (hv : amountAllowed (m.get "redPackMoney") = true) (hle : money m ≤ b) :
    (outline u b m).Sure (debit now m user code) := by
  have hget := exchangeData_unionid user (m.get "redPackMoney")
  have hset : (exchangeData user (m.get "redPackMoney")).isset "unionid" = true := by
    rw [Fields.isset_eq_true, hget, ← Fields.isset_eq_true]
    exact huser.isset
  unfold debit updateUser
  dsimp only
  rw [if_pos hset, hget, huser.key, Prog.bind_assoc]
  refine (calm_getUser huser.key).sure fun r hr => ?_
  have hnew : Account u (b - money m) (r.merge (exchangeData user (m.get "redPackMoney"))) :=
    huser.debit hr
  rw [Fields.jsonEncode_of_encodable hnew.encodable]
  simp only [Prog.call_bind, Prog.op_bind, Prog.bind_assoc]
  refine Or.inl ⟨⟨_, rfl, hnew, hle, hv⟩, fun _ => ?_⟩
  -- after the write come MySQL, the list of exchanges and the reply
  refine ((updateUserMysql_writes _).avoids (by simp)).bind fun _ _ => ?_
  exact ⟨by simp [Cmd.part], fun _ => rfl⟩

theorem refusal_ne {user : Fields} {v : Value} {n : ℕ} (h : exchangeRefusal user v = some n) :
    n ≠ 1000 := by
  unfold exchangeRefusal at h
  split_ifs at h <;> cases h <;> decide

/-- A request that the checks on the record let pass asks for no more than the balance. -/
theorem covered {user : Fields} {v : Value} (huser : Account u b user)
    (h : exchangeRefusal user v = none) (htrue : v = .bool true → b ≠ 0 → 1 ≤ b)
    (hv : amountAllowed v = true) : v.toNum ≤ b := by
  refine amount_le ?_ htrue hv
  rw [← huser.balance]
  unfold exchangeRefusal at h
  split_ifs at h with h1 h2 h3
  exact eq_false_of_ne_true h3

/-- **A request follows its outline**, whatever the balance it finds. -/
theorem seeks_getExchangeCode (now : ℕ) (hkey : userKey (m.get "unionid") = userKey u)
    (htrue : m.get "redPackMoney" = .bool true → b ≠ 0 → 1 ≤ b) :
    (outline u b m).Seeks Grants (getExchangeCode now m) := by
  unfold getExchangeCode
  dsimp only
  split
  · rename_i hv
    refine (calm_getUser hkey).seeks (getUser_no_code _) fun user huser => ?_
    cases href : exchangeRefusal user (m.get "redPackMoney") with
    | some n =>
        have hn := refusal_ne href
        simpa [sendErrno, Outline.Seeks, outline] using hn
    | none =>
        have hle : money m ≤ b := covered huser href htrue hv
        have hcode : ∀ ret : RedeemReply, (if Value.looseEq ret.errno (.num 1000) then pure ret.redeemCode
            else pure (.str "") : Handler Value) = .ret (codeOf ret) := by
          intro ret
          unfold codeOf
          split <;> rfl
        unfold Helper.getCode
        simp only [Prog.call_bind, Prog.op_bind, hcode, Prog.ret_bind]
        refine ⟨by simp [outline, Cmd.part], fun ret _ => ⟨fun hgrant => ?_, fun hno => ?_⟩⟩
        · have hcoded : Value.looseEq (codeOf ret) (.str "") = false := hgrant
          simp only [hcoded]
          exact sure_debit huser hv hle
        · have hempty : Value.looseEq (codeOf ret) (.str "") = true := Bool.not_eq_false _ ▸ hno
          simp only [hempty]
          simp [sendErrno, Outline.Seeks, outline]
  · simp [sendErrno, Outline.Seeks, outline]

/-- A read of the record finds the balance. -/
theorem ok_exec {w : World} {s : Store} (h : ∃ o, s.record (userKey u) = some o ∧ Account u b o.fields)
    (c : Cmd) : (outline u b m).ok c (exec w c s).1 := by
  obtain ⟨o, ho, hacc⟩ := h
  cases c with
  | hget h' k' =>
      cases h' with
      | user =>
          intro hk
          exact ⟨o, by rw [hk]; exact ho, hacc⟩
      | _ => trivial
  | _ => trivial

/-- Every command may be answered without a code. -/
theorem exists_denial {s : Store} (h : ∃ o, s.record (userKey u) = some o ∧ Account u b o.fields)
    (c : Cmd) : ∃ r, (outline u b m).ok c r ∧ ¬ Grants c r := by
  cases c with
  | redeemcode v v' => exact ⟨⟨.num 0, .null⟩, trivial, by rw [Grants]; decide +kernel⟩
  | _ => exact ⟨_, ok_exec (w := World.plain) h _, id⟩

theorem not_quiet_of_mark {c : Cmd} (h : (outline u b m).mark c) : ¬ (outline u b m).quiet c := by
  obtain ⟨o, rfl, -⟩ := h
  exact fun hquiet => hquiet rfl

/-- A request that has a code asks for no more than the balance. -/
theorem money_le_of_sure {s : Store} (h : ∃ o, s.record (userKey u) = some o ∧ Account u b o.fields)
    {p : Handler Reply} (hp : (outline u b m).Sure p) : money m ≤ b := by
  induction p with
  | ret r => cases hp
  | op c k ih =>
      rcases hp with ⟨⟨o, -, -, hle, -⟩, -⟩ | ⟨-, hrest⟩
      · exact hle
      · exact ih _ (hrest _ (ok_exec (w := World.plain) h c))

end Request

/-! ## All requests -/

section Requests

variable {ι : Type} (w : World) (u : Value) (now : ι → ℕ) (msg : ι → JsonObject)

/-- The requests, all still to start. -/
def start (s : Store) : Pool ι Cmd Cmd.Resp Reply Store :=
  { thread := fun i => getExchangeCode (now i) (msg i), store := s }

/-- The request obtains a code by its next command. -/
def obtains (cfg : Pool ι Cmd Cmd.Resp Reply Store) (i : ι) : Option ι :=
  match cfg.thread i with
  | .ret _ => none
  | .op c _ => if Grants c (exec w c cfg.store).1 then some i else none

/-- A request that neither reads nor writes a record any more. -/
def Settled (p : Handler Reply) : Prop :=
  p.All (fun c => c.part ≠ some (.hash .user) ∧ ∀ k, c ≠ .hget .user k) fun _ => True

/-- Request `i` starts only while every other request has not started or is done with the
record. -/
def NonOverlapping (cfg : Pool ι Cmd Cmd.Resp Reply Store) (i : ι) : Prop :=
  cfg.thread i = getExchangeCode (now i) (msg i) → ∀ j, j ≠ i →
    cfg.thread j = getExchangeCode (now j) (msg j) ∨ Settled (cfg.thread j)

/-- A request that will get no code. -/
def Refused (p : Handler Reply) : Prop :=
  p.All (fun c => c.part ≠ some (.hash .user) ∧ ∀ r, ¬ Grants c r) fun r => r.errno? ≠ some 1000

/-- A request that has been debited. -/
def Debited (p : Handler Reply) : Prop :=
  p.All (fun c => c.part ≠ some (.hash .user)) fun r => r.errno? = some 1000

section Settled

variable {u} {b : ℚ} {m : JsonObject} {p : Handler Reply}

/-- A settled program gets every answer that it was checked for. -/
theorem ok_of_settled {c : Cmd} (hc : ∀ k, c ≠ .hget .user k) (r : c.Resp) : (outline u b m).ok c r := by
  cases c with
  | hget h k' =>
      cases h with
      | user => exact absurd rfl (hc k')
      | _ => trivial
  | _ => trivial

/-- A request that is sure to write the record is not done with it. -/
theorem not_sure_of_settled (hs : Settled p) : ¬ (outline u b m).Sure p := by
  induction p with
  | ret r => exact id
  | op c k ih =>
      rintro (⟨hmark, -⟩ | ⟨-, hrest⟩)
      · exact not_quiet_of_mark hmark hs.1.1
      · obtain ⟨r⟩ : Nonempty c.Resp := ⟨(exec World.plain c Store.empty).1⟩
        exact ih r (hs.2 r) (hrest r (ok_of_settled hs.1.2 r))

/-- A request that is done with the record without having a code is refused. -/
theorem refused_of_settled (hb : (outline u b m).Seeks Grants p) (hs : Settled p) : Refused p := by
  induction p with
  | ret r => exact hb
  | op c k ih =>
      have hno : ∀ r, ¬ Grants c r := fun r hgrant =>
        not_sure_of_settled (hs.2 r) ((hb.2 r (ok_of_settled hs.1.2 r)).1 hgrant)
      exact ⟨⟨hb.1, hno⟩, fun r => ih r ((hb.2 r (ok_of_settled hs.1.2 r)).2 (hno r)) (hs.2 r)⟩

end Settled

variable {u now msg} [DecidableEq ι]

/-- What every step keeps: the requests `vs` have obtained a code, those in `D` have been debited and
`b` is left; of the others, only `cur` is between its check and its write, and it may have its code. -/
structure Inv (u : Value) (now : ι → ℕ) (msg : ι → JsonObject) (R : ℚ) (D : Finset ι) (b : ℚ) (cur : Option ι)
    (vs : List ι) (cfg : Pool ι Cmd Cmd.Resp Reply Store) : Prop where
  record : ∃ o, cfg.store.record (userKey u) = some o ∧ Account u b o.fields
  left : b = R - ∑ i ∈ D, money (msg i)
  nonneg : 0 ≤ b
  whole : ∃ n : ℤ, b = n
  coded : ∀ i ∈ D, i ∈ vs
  held : ∀ i ∈ vs, i ∈ D ∨ cur = some i
  debited : ∀ i ∈ D, Debited (cfg.thread i)
  section_ : ∀ i, cur = some i → i ∉ D ∧ (i ∈ vs → (outline u b (msg i)).Sure (cfg.thread i)) ∧
    (i ∉ vs → (outline u b (msg i)).Seeks Grants (cfg.thread i))
  others : ∀ i, i ∉ D → cur ≠ some i →
    cfg.thread i = getExchangeCode (now i) (msg i) ∨ Refused (cfg.thread i)

section Step

variable {R b : ℚ} {cfg : Pool ι Cmd Cmd.Resp Reply Store} {D : Finset ι} {cur : Option ι} {vs : List ι} {i : ι}

omit [DecidableEq ι] in
theorem Inv.one_le (h : Inv u now msg R D b cur vs cfg) (hb : b ≠ 0) : 1 ≤ b := by
  obtain ⟨n, hn⟩ := h.whole
  have h0 := h.nonneg
  rw [hn] at h0 hb ⊢
  have h0 : (0 : ℤ) ≤ n := by exact_mod_cast h0
  have hne : n ≠ 0 := by exact_mod_cast hb
  exact_mod_cast (by omega : (1 : ℤ) ≤ n)

omit [DecidableEq ι] in
/-- A request that starts seeks a code. -/
theorem Inv.seeks_start (h : Inv u now msg R D b cur vs cfg)
    (hkey : ∀ i, userKey ((msg i).get "unionid") = userKey u) (i : ι) :
    (outline u b (msg i)).Seeks Grants (getExchangeCode (now i) (msg i)) :=
  seeks_getExchangeCode (now i) (hkey i) fun _ hb => h.one_le hb

omit [DecidableEq ι] in
/-- A request that starts has no code. -/
theorem Inv.notMem_of_start (h : Inv u now msg R D b cur vs cfg)
    (hkey : ∀ i, userKey ((msg i).get "unionid") = userKey u) (hi : i ∉ D)
    (hp : cfg.thread i = getExchangeCode (now i) (msg i)) : i ∉ vs := by
  intro hvs
  have hsure := (h.section_ i ((h.held i hvs).resolve_left hi)).2.1 hvs
  rw [hp] at hsure
  exact (h.seeks_start hkey i).not_sure (fun _ hc => not_quiet_of_mark hc)
    (fun c _ => exists_denial h.record c) hsure

omit [DecidableEq ι] in
/-- A request that starts becomes the one between its check and its write. -/
theorem Inv.start_section (hkey : ∀ i, userKey ((msg i).get "unionid") = userKey u)
    (h : Inv u now msg R D b cur vs cfg) (hi : i ∉ D)
    (hp : cfg.thread i = getExchangeCode (now i) (msg i))
    (hg : NonOverlapping now msg cfg i) : Inv u now msg R D b (some i) vs cfg := by
  refine { h with held := ?_, section_ := ?_, others := ?_ }
  · intro j hj
    by_cases hjD : j ∈ D
    · exact Or.inl hjD
    · have hcur := (h.held j hj).resolve_left hjD
      by_cases hne : j = i
      · exact Or.inr (hne ▸ rfl)
      · -- the request with the code would have to be done
        rcases hg hp j hne with hstart | hsettled
        · exact absurd hj (h.notMem_of_start hkey hjD hstart)
        · exact absurd ((h.section_ j hcur).2.1 hj) (not_sure_of_settled hsettled)
  · rintro j ⟨rfl⟩
    rw [hp]
    exact ⟨hi, fun hvs => absurd hvs (h.notMem_of_start hkey hi hp), fun _ => h.seeks_start hkey i⟩
  · intro j hj hji
    have hne : j ≠ i := by rintro rfl; exact hji rfl
    rcases hg hp j hne with hstart | hsettled
    · exact Or.inl hstart
    · by_cases hcur : cur = some j
      · refine Or.inr (refused_of_settled ((h.section_ j hcur).2.2 fun hvs => ?_) hsettled)
        exact not_sure_of_settled hsettled ((h.section_ j hcur).2.1 hvs)
      · exact h.others j hj hcur

/-- A step of a program that writes no record, and may get a code. -/
theorem Inv.step_quiet (h : Inv u now msg R D b cur vs cfg) {c : Cmd} {k : c.Resp → Handler Reply}
    (hop : cfg.thread i = .op c k) (hc : c.part ≠ some (.hash .user)) {vs' : List ι}
    (hvs : ∀ j, j ∈ vs' ↔ j ∈ vs ∨ j = i ∧ Grants c (exec w c cfg.store).1)
    (hdeb : i ∈ D → Debited (k (exec w c cfg.store).1))
    (hsec : cur = some i → (i ∈ vs' → (outline u b (msg i)).Sure (k (exec w c cfg.store).1)) ∧
      (i ∉ vs' → (outline u b (msg i)).Seeks Grants (k (exec w c cfg.store).1)))
    (hoth : i ∉ D → cur ≠ some i →
      ¬ Grants c (exec w c cfg.store).1 ∧ Refused (k (exec w c cfg.store).1)) :
    Inv u now msg R D b cur vs' (cfg.step (exec w) i) := by
  have hi : (cfg.step (exec w) i).thread i = k (exec w c cfg.store).1 :=
    Pool.step_thread_self hop
  obtain ⟨o, ho, hacc⟩ := h.record
  have hmem : ∀ j, j ≠ i → (j ∈ vs' ↔ j ∈ vs) := fun j hj => by
    rw [hvs, or_iff_left fun heq => hj heq.1]
  refine { h with
    record := ⟨o, ?_, hacc⟩, coded := ?_, held := ?_, debited := ?_, section_ := ?_, others := ?_ }
  · rw [Pool.step_store hop, Store.record_congr (exec_hash_of_part hc), ho]
  · exact fun j hj => (hvs j).mpr (Or.inl (h.coded j hj))
  · intro j hj
    rcases (hvs j).mp hj with hj | ⟨rfl, hgrant⟩
    · exact h.held j hj
    · by_cases hD : j ∈ D
      · exact Or.inl hD
      · refine Or.inr ?_
        by_contra hcur
        exact (hoth hD hcur).1 hgrant
  · intro j hj
    by_cases hji : j = i
    · rw [hji, hi]; exact hdeb (hji ▸ hj)
    · rw [Pool.step_thread_of_ne hji]; exact h.debited j hj
  · intro j hj
    refine ⟨(h.section_ j hj).1, ?_⟩
    by_cases hji : j = i
    · subst hji
      rw [hi]
      exact hsec hj
    · rw [Pool.step_thread_of_ne hji, hmem j hji]
      exact (h.section_ j hj).2
  · intro j hj hcur
    by_cases hji : j = i
    · rw [hji, hi]; exact Or.inr (hoth (hji ▸ hj) (hji ▸ hcur)).2
    · rw [Pool.step_thread_of_ne hji]; exact h.others j hj hcur

/-- The debit. -/
theorem Inv.step_debit (h : Inv u now msg R D b (some i) vs cfg) (hi : i ∈ vs) {o : JsonObject}
    {k : Unit → Handler Reply}
    (hop : cfg.thread i = .op (.hset .user (userKey u) (some o)) k)
    (hacc : Account u (b - money (msg i)) o.fields) (hle : money (msg i) ≤ b)
    (hv : amountAllowed ((msg i).get "redPackMoney") = true) (hafter : ∀ r, Debited (k r)) :
    Inv u now msg R (insert i D) (b - money (msg i)) none vs (cfg.step (exec w) i) := by
  have hD : i ∉ D := (h.section_ i rfl).1
  obtain ⟨o', ho', -⟩ := h.record
  refine ⟨⟨o, ?_, hacc⟩, ?_, by linarith, ?_, ?_, ?_, ?_, by simp, ?_⟩
  · rw [Pool.step_store hop]
    exact Store.record_hset.trans (if_pos ⟨rfl, Store.storable_of_record ho'⟩)
  · rw [Finset.sum_insert hD, h.left]
    ring
  · obtain ⟨n, rfl⟩ := h.whole
    obtain ⟨a, ha⟩ := amount_integral hv
    exact ⟨n - a, by rw [money, ha]; push_cast; ring⟩
  · intro j hj
    rcases Finset.mem_insert.mp hj with rfl | hj
    · exact hi
    · exact h.coded j hj
  · intro j hj
    rcases h.held j hj with hj | hj
    · exact Or.inl (Finset.mem_insert_of_mem hj)
    · exact Or.inl (Finset.mem_insert.mpr (Or.inl (Option.some.inj hj).symm))
  · intro j hj
    by_cases hji : j = i
    · rw [hji, Pool.step_thread_self hop]; exact hafter _
    · rw [Pool.step_thread_of_ne hji]
      exact h.debited j (Finset.mem_of_mem_insert_of_ne hj hji)
  · intro j hj _
    rw [Finset.mem_insert, not_or] at hj
    rw [Pool.step_thread_of_ne hj.1]
    exact h.others j hj.2 fun hcur => hj.1 (Option.some.inj hcur).symm

/-- The step of the request between its check and its write. -/
theorem Inv.step_section (h : Inv u now msg R D b (some i) vs cfg) {c : Cmd} {k : c.Resp → Handler Reply}
    (hop : cfg.thread i = .op c k) {vs' : List ι}
    (hvs : ∀ j, j ∈ vs' ↔ j ∈ vs ∨ j = i ∧ Grants c (exec w c cfg.store).1) :
    ∃ D b cur, Inv u now msg R D b cur vs' (cfg.step (exec w) i) := by
  obtain ⟨hD, hsure, hseeks⟩ := h.section_ i rfl
  rw [hop] at hsure hseeks
  have hok := ok_exec (m := msg i) (w := w) h.record c
  by_cases hi : i ∈ vs
  · have hi' : i ∈ vs' := (hvs i).mpr (Or.inl hi)
    rcases hsure hi with ⟨⟨o, rfl, hacc, hle, hv⟩, hafter⟩ | ⟨hquiet, hrest⟩
    · have hsame : ∀ j, j ∈ vs' ↔ j ∈ vs := fun j => by rw [hvs, or_iff_left fun hno => hno.2]
      have hdebit := h.step_debit w hi hop hacc hle hv hafter
      exact ⟨_, _, _, { hdebit with
        coded := fun j hj => (hsame j).mpr (hdebit.coded j hj)
        held := fun j hj => hdebit.held j ((hsame j).mp hj)
        section_ := nofun }⟩
    · exact ⟨D, b, some i, h.step_quiet w hop hquiet hvs (fun hi => absurd hi hD)
        (fun _ => ⟨fun _ => hrest _ hok, fun hno => absurd hi' hno⟩) fun _ hcur => absurd rfl hcur⟩
  · obtain ⟨hquiet, hrest⟩ := hseeks hi
    refine ⟨D, b, some i, h.step_quiet w hop hquiet hvs (fun hi => absurd hi hD) (fun _ => ?_)
      fun _ hcur => absurd rfl hcur⟩
    refine ⟨fun hi' => (hrest _ hok).1 ?_, fun hi' => (hrest _ hok).2 fun hgrant => ?_⟩
    · exact ((hvs i).mp hi').elim (fun hmem => absurd hmem hi) And.right
    · exact hi' ((hvs i).mpr (Or.inr ⟨rfl, hgrant⟩))

theorem inv_step (hkey : ∀ i, userKey ((msg i).get "unionid") = userKey u)
    (h : ∃ D b cur, Inv u now msg R D b cur vs cfg) (hg : NonOverlapping now msg cfg i) :
    ∃ D b cur, Inv u now msg R D b cur (vs ++ (obtains w cfg i).toList) (cfg.step (exec w) i) := by
  obtain ⟨D, b, cur, h⟩ := h
  cases hp : cfg.thread i with
  | ret r =>
      have hnone : obtains w cfg i = none := by rw [obtains, hp]
      rw [Pool.step_of_ret hp, hnone, Option.toList_none, List.append_nil]
      exact ⟨D, b, cur, h⟩
  | op c k =>
      have hvs : ∀ j, j ∈ vs ++ (obtains w cfg i).toList ↔
          j ∈ vs ∨ j = i ∧ Grants c (exec w c cfg.store).1 := by
        intro j
        rw [List.mem_append, obtains, hp]
        dsimp only
        split <;> simp_all
      by_cases hi : i ∈ D
      · have hdeb := h.debited i hi
        rw [hp] at hdeb
        refine ⟨D, b, cur, h.step_quiet w hp hdeb.1 hvs (fun _ => hdeb.2 _) (fun hcur => ?_)
          fun hi' => absurd hi hi'⟩
        exact absurd hi (h.section_ i hcur).1
      · by_cases hcur : cur = some i
        · subst hcur
          exact h.step_section w hp hvs
        · rcases h.others i hi hcur with hstart | href
          · exact (h.start_section hkey hi hstart hg).step_section w hp hvs
          · rw [hp] at href
            exact ⟨D, b, cur, h.step_quiet w hp href.1.1 hvs (fun hi' => absurd hi' hi)
              (fun hcur' => absurd hcur' hcur) fun _ _ => ⟨href.1.2 _, href.2 _⟩⟩

/-- The requests with a code cost no more than the balance: besides the debited ones there may be one that
has its code and is not debited yet. -/
theorem Inv.cost_le (h : Inv u now msg R D b cur vs cfg) : ∑ i ∈ vs.toFinset, money (msg i) ≤ R := by
  have hleft := h.left
  have hnonneg := h.nonneg
  have hsub : D ⊆ vs.toFinset := fun i hi => List.mem_toFinset.mpr (h.coded i hi)
  by_cases hall : vs.toFinset ⊆ D
  · rw [hall.antisymm hsub]
    linarith
  · obtain ⟨i, hi, hD⟩ := Finset.not_subset.mp hall
    have hvs := List.mem_toFinset.mp hi
    have hcur := (h.held i hvs).resolve_left hD
    have hle := money_le_of_sure h.record ((h.section_ i hcur).2.1 hvs)
    have hset : vs.toFinset = insert i D := by
      refine Finset.Subset.antisymm (fun j hj => ?_) (Finset.insert_subset hi hsub)
      rcases h.held j (List.mem_toFinset.mp hj) with hj | hj
      · exact Finset.mem_insert_of_mem hj
      · rw [hcur] at hj
        exact Finset.mem_insert.mpr (Or.inl (Option.some.inj hj).symm)
    rw [hset, Finset.sum_insert hD]
    linarith

/-- When all requests have ended, those with a code have been debited. -/
theorem Inv.coded_eq (h : Inv u now msg R D b cur vs cfg) (hended : ∀ i, ∃ r, (cfg.thread i).result = some r) :
    vs.toFinset = D := by
  refine Finset.Subset.antisymm (fun i hi => ?_) fun i hi => List.mem_toFinset.mpr (h.coded i hi)
  have hvs := List.mem_toFinset.mp hi
  refine (h.held i hvs).resolve_right fun hcur => ?_
  have hsure := (h.section_ i hcur).2.1 hvs
  obtain ⟨r, hr⟩ := hended i
  cases hp : cfg.thread i with
  | ret r' =>
      rw [hp] at hsure
      exact hsure
  | op c k =>
      rw [hp] at hr
      cases hr

end Step

variable (now msg) in
/-- The requests that obtain a code in a run. -/
def holders (s : Store) (schedule : List ι) : Finset ι :=
  (eventValues (Pool.step (exec w)) (obtains w) (start now msg s) schedule).toFinset

/-- **Exchange soundness.**  Requests of one user with balance `R`, in any interleaving in which
a request starts only while no other is between its check and its write: the requests that have obtained
a code cost at most `R`, and when all have ended the stored balance is `R` minus their cost.  The balance is
a plain number; of another one PHP rounds what is left, and the amount `true`, which costs 1, passes the
check. -/
theorem exchange_within_balance
    (hkey : ∀ i, userKey ((msg i).get "unionid") = userKey u) {s : Store} {o : JsonObject} {R : ℚ}
    (ho : s.record (userKey u) = some o) (hacc : Account u R o.fields) (hR : 0 ≤ R) (hplain : IsPlain R)
    (schedule : List ι)
    (hg : Guarded (Pool.step (exec w)) (NonOverlapping now msg) (start now msg s) schedule) :
    let cfg := schedule.foldl (Pool.step (exec w)) (start now msg s)
    ∑ i ∈ holders w now msg s schedule, money (msg i) ≤ R ∧
      ((∀ i, ∃ r, (cfg.thread i).result = some r) →
        (cfg.store.fieldsAt (userKey u)).get "redPackVal" =
          .num (R - ∑ i ∈ holders w now msg s schedule, money (msg i))) := by
  intro cfg
  have hwhole : ∃ n : ℤ, R = n := ⟨R.num, (Rat.den_eq_one_iff R).mp hplain.1 |>.symm⟩
  have hstart : Inv u now msg R ∅ R none [] (start now msg s) :=
    ⟨⟨o, ho, hacc⟩, by simp, hR, hwhole, by simp, by simp, by simp, by simp, fun i _ _ => Or.inl rfl⟩
  obtain ⟨D, b, cur, h⟩ := hg.history (E := obtains w)
    (H := fun vs cfg => ∃ D b cur, Inv u now msg R D b cur vs cfg)
    (fun vs cfg i h hg => inv_step w hkey h hg) ⟨∅, R, none, hstart⟩
  rw [List.nil_append] at h
  refine ⟨h.cost_le, fun hended => ?_⟩
  obtain ⟨o', ho', hacc'⟩ := h.record
  rw [Store.fieldsAt_of_record ho', hacc'.balance, holders, h.coded_eq hended, h.left]

end Requests

/-! ## Two requests at once -/

/-- A user with a balance of 600 who may exchange it. -/
def sampleRecord : JsonObject where
  fields := Fields.ofList
    [("unionid", .str "a"), ("userno", .num 100001), ("redPackVal", .num 600),
     ("mobile", .str "138"), ("rechargeVal", .num 600), ("score", .num 36)]
  encodable := Fields.encodes_iff.mp rfl

/-- The user is the only one. -/
def sampleStore : Store := Store.empty.hset .user "u_a" (some sampleRecord)

/-- Both requests ask for 600. -/
def sampleMsg (_ : Bool) : JsonObject where
  fields := Fields.ofList [("unionid", .str "a"), ("redPackMoney", .num 600)]
  encodable := Fields.encodes_iff.mp rfl

theorem sampleRecord_account : Account (.str "a") 600 sampleRecord.fields :=
  ⟨by decide +kernel, by decide +kernel, by decide +kernel, sampleRecord.encodable⟩

/-- The two requests in turns, command by command. -/
def inTurns : List Bool :=
  [false, true, false, true, false, true, false, true, false, true, false, true]

/-- Two requests read the balance of 600 before either writes: both get a code for 600. -/
theorem exchange_overspent :
    ¬ ∀ (w : World) (u : Value) (now : Bool → ℕ) (msg : Bool → JsonObject) (s : Store)
      (o : JsonObject) (R : ℚ) (schedule : List Bool),
      (∀ i, userKey ((msg i).get "unionid") = userKey u) → s.record (userKey u) = some o →
      Account u R o.fields → 0 ≤ R → IsPlain R →
      let cfg := schedule.foldl (Pool.step (exec w)) (start now msg s)
      ∑ i ∈ holders w now msg s schedule, money (msg i) ≤ R ∧
        ((∀ i, ∃ r, (cfg.thread i).result = some r) →
          (cfg.store.fieldsAt (userKey u)).get "redPackVal" =
            .num (R - ∑ i ∈ holders w now msg s schedule, money (msg i))) := by
  intro h
  have hsum := (h World.plain (.str "a") (fun _ => 0) sampleMsg sampleStore sampleRecord 600 inTurns
    (by decide +kernel) rfl sampleRecord_account (by decide +kernel) (by decide +kernel)).1
  exact absurd hsum (by decide +kernel)

/-- A request that has ended is done with the record. -/
theorem settled_of_ended {p : Handler Reply} (h : p.result.isSome = true) : Settled p := by
  cases p with
  | ret r => trivial
  | op c k => cases h

/-- The first request before the second. -/
def inOrder : List Bool := [false, false, false, false, false, false, true]

/-- One request after the other: the first gets a code, the second is refused. -/
theorem exchange_one_by_one :
    let cfg := inOrder.foldl (Pool.step (exec World.plain)) (start (fun _ => 0) sampleMsg sampleStore)
    holders World.plain (fun _ => 0) sampleMsg sampleStore inOrder = {false} ∧
      ∑ i ∈ holders World.plain (fun _ => 0) sampleMsg sampleStore inOrder, money (sampleMsg i) ≤ 600 ∧
        ((∀ i, ∃ r, (cfg.thread i).result = some r) →
          (cfg.store.fieldsAt (userKey (.str "a"))).get "redPackVal" =
            .num (600 - ∑ i ∈ holders World.plain (fun _ => 0) sampleMsg sampleStore inOrder,
              money (sampleMsg i))) := by
  refine ⟨by decide +kernel, exchange_within_balance World.plain (u := .str "a") (o := sampleRecord)
    (by decide +kernel) rfl sampleRecord_account (by decide +kernel) (by decide +kernel) inOrder ?_⟩
  refine ⟨?_, ?_, ?_, ?_, ?_, ?_, ?_, trivial⟩
  -- while the first request is at work, the second has not started
  iterate 6
    rintro - (_ | _) hj
    · exact absurd rfl hj
    · exact Or.inl (by simp [Pool.step_thread_of_ne hj, start])
  -- and then the first has ended
  rintro - (_ | _) hj
  · exact Or.inr (settled_of_ended (by decide +kernel))
  · exact absurd rfl hj

end Exchange

/-
# The rates of the activity

`gm_activitySetting.php` changes the settings of the red-packet activity, `service_getActInfo.php`
reports them to the game servers.  Three of the settings are the rates of the prizes, in percent.

The check of `gm_activitySetting.php` looks at the rates of one message, and only if `rate_40` is among
them; what is stored is the merge of the message with what was stored before, or with the default
rates.  `reported_rates_iff` says for which sequences of messages with plain rates the reported rates
always add up to 100.
-/
import DoudizhuBackend.GameServer
import DoudizhuBackend.GuardedRun
import DoudizhuBackend.Players

open Php GameData GameServer Players

namespace Activity

/-! ## Settings -/

/-- The rates of the prizes. -/
def rateNames : List String := ["rate_120", "rate_80", "rate_40"]

/-- The stored settings; there are none before the first change. -/
def settings (s : Store) : Fields :=
  (s.kvJson.lookup "k_activityInfo").join.elim ∅ JsonObject.fields

/-- The rate in force: the stored one, or the default. -/
def rate (info : Fields) (f : String) : ℚ :=
  (info.getD f ((Fields.ofList defaultActivity).get f)).toNum

/-- The rates in force add up to 100. -/
def SumsUp (info : Fields) : Prop := (rateNames.map (rate info)).sum = 100

instance (info : Fields) : Decidable (SumsUp info) := by unfold SumsUp; infer_instance

/-- One request to `gm_activitySetting.php`. -/
def step (w : World) (s : Store) (msg : JsonObject) : Store := ((gmActivitySetting msg).run (exec w) s).2

/-- The check of `gm_activitySetting.php` fails. -/
def Refused (msg : JsonObject) : Prop :=
  msg.isset "rate_40" = true ∧ (rateNames.map fun f => (msg.get f).toNum).sum ≠ 100

instance (msg : JsonObject) : Decidable (Refused msg) := by unfold Refused; infer_instance

/-- The rates of the message are plain numbers. -/
def PlainRates (msg : JsonObject) : Prop := msg.fields.Counts rateNames

instance (msg : JsonObject) : Decidable (PlainRates msg) := inferInstanceAs (Decidable (msg.fields.Counts _))

/-- The message is refused, or the rates it names add up to the same as the rates in force that they
replace. -/
def KeepsSum (s : Store) (msg : JsonObject) : Prop :=
  Refused msg ∨
    ((rateNames.filter fun f => msg.isset f).map fun f => (msg.get f).toNum).sum =
      ((rateNames.filter fun f => msg.isset f).map (rate (settings s))).sum

instance (s : Store) (msg : JsonObject) : Decidable (KeepsSum s msg) := by
  unfold KeepsSum; infer_instance

/-- What the message names. -/
def named (msg : JsonObject) : Fields :=
  Fields.ofList
    ((["activitySwitch", "rate_120", "rate_80", "rate_40"].filter fun f => msg.isset f).map
      fun f => (f, msg.get f))

variable (w : World) (s : Store) (msg : JsonObject)

/-! ## One request -/

/-- What the message names is read as it was sent. -/
theorem get_named {f : String} (hf : f ∈ rateNames) : (named msg).get f = msg.get f := by
  have key : ∀ l : List String,
      (Fields.ofList ((l.filter fun f => msg.isset f).map fun f => (f, msg.get f))).get f =
        if f ∈ l then msg.get f else .null := by
    intro l
    induction l with
    | nil => rfl
    | cons k l ih =>
        cases hk : msg.isset k with
        | true =>
            rw [List.filter_cons_of_pos hk, List.map_cons, Fields.get_ofList_cons, ih]
            by_cases hfk : f = k
            · simp [hfk]
            · simp [hfk]
        | false =>
            rw [List.filter_cons_of_neg (by simp [hk]), ih]
            by_cases hfk : f = k
            · subst hfk
              simp [JsonObject.isset_eq_false.mp hk]
            · simp [hfk]
  rw [named, key, if_pos]
  exact List.mem_cons_of_mem _ hf

theorem mem_named {f : String} (hf : f ∈ rateNames) : f ∈ named msg ↔ msg.isset f = true := by
  rw [named, Fields.mem_ofList]
  simp only [List.map_map, List.mem_map, List.mem_filter, Function.comp_apply]
  constructor
  · rintro ⟨k, hk, rfl⟩
    exact hk.2
  · exact fun h => ⟨f, ⟨List.mem_cons_of_mem _ hf, h⟩, rfl⟩

/-- What the message names can be stored. -/
theorem encodable_named : (named msg).Encodable := by
  apply Fields.encodable_ofList
  intro kv hkv
  obtain ⟨f, -, rfl⟩ := List.mem_map.mp hkv
  exact msg.encodable_get f

/-- The settings a change starts from. -/
def origin (info : Fields) : Fields :=
  if info.isEmpty then Fields.ofList defaultActivity else info

theorem encodable_settings : (settings s).Encodable := by
  unfold settings
  cases (s.kvJson.lookup "k_activityInfo").join with
  | none => exact Fields.encodable_empty
  | some info => exact info.encodable

theorem encodable_origin : (origin (settings s)).Encodable := by
  unfold origin
  split
  · exact Fields.encodable_ofList (by simp [defaultActivity, Fields.encodable])
  · exact encodable_settings s

/-- Starting from the default settings changes no rate in force. -/
theorem rate_origin (info : Fields) (f : String) : rate (origin info) f = rate info f := by
  unfold origin
  split
  · rename_i h
    have hinfo : info = ∅ := AList.ext (List.isEmpty_iff.mp h)
    subst hinfo
    unfold rate Fields.getD
    split <;> rfl
  · rfl

/-- A message that fails the check is answered with 1200 and changes nothing; every other is merged
with the settings. -/
theorem gmActivitySetting_run :
    (gmActivitySetting msg).run (exec w) s =
      if Refused msg then (.send 1200 ∅, s)
      else (.send 1000 ∅, { s with
        kvJson := s.kvJson.insert "k_activityInfo" ((origin (settings s)).merge (named msg)).jsonEncode }) := by
  have hsum : ((named msg).get "rate_120").toNum + ((named msg).get "rate_80").toNum +
      ((named msg).get "rate_40").toNum = (rateNames.map fun f => (msg.get f).toNum).sum := by
    rw [get_named msg (by decide), get_named msg (by decide), get_named msg (by decide)]
    simp [rateNames, add_assoc]
  show Prog.run (exec w) (if (msg.isset "rate_40" && decide (((named msg).get "rate_120").toNum +
    ((named msg).get "rate_80").toNum + ((named msg).get "rate_40").toNum ≠ 100)) = true then _ else _) s = _
  rw [hsum]
  by_cases h : Refused msg
  · rw [if_pos h, if_pos (by simpa [Refused] using h)]
    rfl
  · rw [if_neg h, if_neg (by simpa [Refused] using h)]
    rfl

/-- The settings after a message that passes the check. -/
theorem settings_step (h : ¬ Refused msg) :
    settings (step w s msg) = (origin (settings s)).merge (named msg) := by
  unfold step
  rw [gmActivitySetting_run, if_neg h, settings]
  have hencodable := (encodable_origin s).merge (encodable_named msg)
  rw [AList.lookup_insert, Fields.jsonEncode_of_encodable hencodable]
  rfl

/-- A rate is the one of the message if it names it, and else the one before. -/
theorem rate_step (h : ¬ Refused msg) {f : String} (hf : f ∈ rateNames) :
    rate (settings (step w s msg)) f =
      if msg.isset f then (msg.get f).toNum else rate (settings s) f := by
  rw [settings_step w s msg h]
  cases hset : msg.isset f with
  | true =>
      have hmem : f ∈ named msg := (mem_named msg hf).mpr hset
      have hget : ((origin (settings s)).merge (named msg)).get f = msg.get f := by
        rw [Fields.get_merge_of_mem hmem, get_named msg hf]
      have hisset : ((origin (settings s)).merge (named msg)).isset f = true := by
        rw [Fields.isset_eq_true, hget]
        exact JsonObject.isset_eq_true.mp hset
      rw [rate, Fields.getD, if_pos hisset, hget]
      rfl
  | false =>
      have hmem : f ∉ named msg := by
        rw [mem_named msg hf, hset]
        exact Bool.false_ne_true
      rw [← rate_origin (settings s) f]
      simp only [rate, Fields.getD, Fields.isset, Fields.get_merge_of_notMem hmem]
      rfl

/-- The sum of the rates after a message: the rates it names take the place of those in force. -/
theorem sum_step (h : ¬ Refused msg) :
    (rateNames.map (rate (settings (step w s msg)))).sum +
        ((rateNames.filter fun f => msg.isset f).map (rate (settings s))).sum =
      (rateNames.map (rate (settings s))).sum +
        ((rateNames.filter fun f => msg.isset f).map fun f => (msg.get f).toNum).sum := by
  have key : ∀ l : List String, (∀ f ∈ l, f ∈ rateNames) →
      (l.map (rate (settings (step w s msg)))).sum +
          ((l.filter fun f => msg.isset f).map (rate (settings s))).sum =
        (l.map (rate (settings s))).sum +
          ((l.filter fun f => msg.isset f).map fun f => (msg.get f).toNum).sum := by
    intro l
    induction l with
    | nil => intro _; rfl
    | cons f l ih =>
        intro hl
        have hrest := ih fun k hk => hl k (List.mem_cons_of_mem f hk)
        have hf := rate_step w s msg h (hl f List.mem_cons_self)
        cases hset : msg.isset f with
        | true =>
            rw [hset, if_pos rfl] at hf
            rw [List.filter_cons_of_pos hset]
            simp only [List.map_cons, List.sum_cons]
            linarith
        | false =>
            rw [hset, if_neg Bool.false_ne_true] at hf
            rw [List.filter_cons_of_neg (by simp [hset])]
            simp only [List.map_cons, List.sum_cons]
            linarith
  exact key rateNames fun f hf => hf

/-- A request keeps the sum exactly if its rates add up to what they replace, or it is refused. -/
theorem sumsUp_step (hs : SumsUp (settings s)) : SumsUp (settings (step w s msg)) ↔ KeepsSum s msg := by
  by_cases h : Refused msg
  · have hstep : step w s msg = s := by rw [step, gmActivitySetting_run, if_pos h]
    rw [hstep]
    exact iff_of_true hs (Or.inl h)
  · have hsum := sum_step w s msg h
    unfold SumsUp at *
    rw [hs] at hsum
    constructor
    · intro h'
      refine Or.inr ?_
      linarith
    · intro h'
      have hnamed := h'.resolve_left h
      linarith

/-! ## All sequences of requests -/

/-- The rates that `service_getActInfo.php` reports are those in force. -/
theorem serviceGetActInfo_rates :
    ∃ data, (serviceGetActInfo.run (exec w) s).1 = .sendPlain data ∧
      ∀ f ∈ rateNames, (data.get f).toNum = rate (settings s) f := by
  refine ⟨_, rfl, ?_⟩
  intro f hf
  simp only [rateNames, List.mem_cons, List.not_mem_nil, or_false] at hf
  rw [Fields.get_merge_of_notMem]
  · show ((defaultActivity.foldl (fun info kv => info.setDefault kv.1 kv.2) (settings s)).get f).toNum = _
    simp only [defaultActivity, List.foldl_cons, List.foldl_nil, Fields.get_setDefault]
    rcases hf with rfl | rfl | rfl
    all_goals simp [rate, Fields.getD, Fields.isset, Fields.get_setDefault, defaultActivity,
      Fields.get_ofList_cons]
  · rw [Fields.mem_ofList]
    rcases hf with rfl | rfl | rfl
    all_goals simp

/-- The three rates that `service_getActInfo.php` reports add up to 100. -/
def ReportsHundred (w : World) (s : Store) : Prop :=
  ∃ data, (serviceGetActInfo.run (exec w) s).1 = .sendPlain data ∧
    (data.get "rate_120").toNum + (data.get "rate_80").toNum + (data.get "rate_40").toNum = 100

theorem reportsHundred_iff : ReportsHundred w s ↔ SumsUp (settings s) := by
  obtain ⟨data, hdata, hrates⟩ := serviceGetActInfo_rates w s
  have hsum : (data.get "rate_120").toNum + (data.get "rate_80").toNum + (data.get "rate_40").toNum =
      (rateNames.map (rate (settings s))).sum := by
    rw [hrates _ (by decide), hrates _ (by decide), hrates _ (by decide)]
    simp [rateNames, add_assoc]
  unfold SumsUp
  rw [← hsum]
  constructor
  · rintro ⟨data', hdata', h⟩
    rw [hdata] at hdata'
    cases hdata'
    exact h
  · exact fun h => ⟨data, hdata, h⟩

/-- **The reported rates.**  In all states of a sequence of requests to `gm_activitySetting.php` with plain
rates the reported rates add up to 100 if and only if every request is refused or names rates that add up to
the same as those they replace.  A request that is answered with 1200 changes nothing. -/
theorem reported_rates_iff (msgs : List JsonObject) (_ : ∀ msg ∈ msgs, PlainRates msg) :
    ((∀ pre, pre <+: msgs → ReportsHundred w (pre.foldl (step w) Store.empty)) ↔
      Guarded (step w) KeepsSum Store.empty msgs) ∧
    ∀ s msg, ((gmActivitySetting msg).run (exec w) s).1.errno? = some 1200 → step w s msg = s := by
  constructor
  · simp only [reportsHundred_iff]
    exact forall_isPrefix_iff_guarded (fun s msg hs => sumsUp_step w s msg hs) (by decide +kernel)
  · intro s msg herrno
    unfold step
    rw [gmActivitySetting_run] at herrno ⊢
    split at herrno
    · rw [if_pos ‹_›]
    · simp at herrno

/-- Only `rate_120` is changed. -/
def sampleSetting : JsonObject :=
  ⟨Fields.ofList [("rate_120", .num 50)], Fields.encodable_ofList (by simp [Fields.encodable])⟩

/-- A change that moves ten percent from the smallest prize to the largest. -/
def sampleShift : JsonObject :=
  ⟨Fields.ofList [("rate_120", .num 43), ("rate_80", .num 33), ("rate_40", .num 24)],
    Fields.encodable_ofList (by simp [Fields.encodable])⟩

/-- After a change of all three rates the reported ones add up to 100. -/
theorem reported_rates_iff_sample :
    ReportsHundred World.plain (step World.plain Store.empty sampleShift) :=
  ((reported_rates_iff World.plain [sampleShift] (by decide +kernel)).1.mpr (by decide +kernel)) [sampleShift]
    ⟨[], rfl⟩

/-- **A partial change is not checked.**  The message names `rate_120` only, it is answered with 1000,
and the rates add up to 117. -/
theorem partial_setting_unchecked :
    ((gmActivitySetting sampleSetting).run (exec World.plain) Store.empty).1.errno? = some 1000 ∧
      ¬ ReportsHundred World.plain (step World.plain Store.empty sampleSetting) := by
  refine ⟨by decide +kernel, ?_⟩
  rw [reportsHundred_iff]
  decide +kernel

end Activity

/-
# Concurrent updates of one record

Every handler changes a user's record through `updateUser`: it reads the record, merges the
new fields into its copy, and writes the whole copy back.  This file runs any number of such
calls on one user against each other, in any interleaving of their single commands, where no
two of them name a common field.

A call that writes a copy that is out of date undoes the updates made since it has read the
record (`lost_update`).  If no call reads the record while another one has read it and not yet
written it back (`Exclusive`), no update is lost (`updates_all_applied`).
-/
import DoudizhuBackend.CommandPool
import DoudizhuBackend.UserRecords

open Php GameData

namespace FieldUpdates

section Calls

variable {ι : Type} (w : World) (u : Value) (data : ι → Fields)

/-- The calls, all still to start. -/
def start (s : Store) : Pool ι Cmd Cmd.Resp Unit Store :=
  { thread := fun i => updateUser (data i), store := s }

/-- The next command of a call writes a record. -/
def AboutToWrite (p : Handler Unit) : Prop := p.pending.bind Cmd.part = some (.hash .user)

instance (p : Handler Unit) : Decidable (AboutToWrite p) := by unfold AboutToWrite; infer_instance

/-- Call `i` does not read the record while another call is about to write it. -/
def Exclusive (cfg : Pool ι Cmd Cmd.Resp Unit Store) (i : ι) : Prop :=
  (cfg.thread i).pending = some (.hget .user (userKey u)) →
    ∀ j, j ≠ i → ¬ AboutToWrite (cfg.thread j)

/-- The data arrays of the calls: all for the user `u`, with no other field in common. -/
structure Disjoint : Prop where
  unionid : ∀ i, (data i).get "unionid" = u
  isset : u ≠ .null
  disjoint : ∀ i j f, f ∈ data i → f ∈ data j → f ≠ "unionid" → i = j

/-- Data that can be encoded and does not take the number away. -/
structure Wellformed (d : Fields) : Prop where
  encodable : d.Encodable
  numbered : "userno" ∈ d → d.isset "userno" = true

/-- The record after the calls in `D` have written: their fields, and else those of `o`. -/
def Applied (o : Fields) (D : Finset ι) (r : Fields) : Prop :=
  (∀ i ∈ D, ∀ f, f ∈ data i → r.get f = (data i).get f) ∧
    ∀ f, (∀ i ∈ D, f ∉ data i) → r.get f = o.get f

/-! ## One call -/

/-- What is left of call `i` after it has read the record `r`. -/
def writing (i : ι) (r : Fields) : Handler Unit :=
  .op (.hset .user (userKey u) (r.merge (data i)).jsonEncode) fun _ => do
    let _ ← updateUserMysql (data i)

/-- What is left of a call after its write: no further write of a record. -/
def Written (p : Handler Unit) : Prop := p.All (fun c => c.part ≠ some (.hash .user)) fun _ => True

variable {u data}

/-- A call starts by reading the record. -/
theorem updateUser_reads (hd : Disjoint u data) (i : ι) :
    ∃ k, updateUser (data i) = .op (.hget .user (userKey u)) k ∧
      ∀ r o, r.join = some o → o.isset "userno" = true → k r = writing u data i o.fields := by
  have hset : (data i).isset "unionid" = true := by
    rw [Fields.isset_eq_true, hd.unionid i]
    exact hd.isset
  unfold updateUser getUser
  rw [if_pos hset, hd.unionid i]
  simp only [Prog.call_bind, Prog.op_bind]
  refine ⟨_, rfl, fun r o hr ho => ?_⟩
  simp only [hr, ho, if_true]
  rfl

theorem written_after (i : ι) :
    Written (do let _ ← updateUserMysql (data i)) :=
  ((updateUserMysql_writes (data i)).avoids (by simp)).bind fun _ _ => trivial

/-- A command that does not write the hash `user` leaves the records alone. -/
theorem exec_record_of_part {c : Cmd} (hc : c.part ≠ some (.hash .user)) (s : Store) (k : String) :
    (exec w c s).2.record k = s.record k :=
  Store.record_congr (exec_hash_of_part hc)

/-! ## All calls -/

variable [DecidableEq ι]

/-- What every step keeps: the calls in `D` have written and the record `o'` is that of their
data; the others have not started, except for at most one, which has read `o'`. -/
structure Inv (u : Value) (data : ι → Fields) (o : Fields) (cfg : Pool ι Cmd Cmd.Resp Unit Store)
    (D : Finset ι) (o' : JsonObject) : Prop where
  record : cfg.store.record (userKey u) = some o'
  numbered : o'.isset "userno" = true
  applied : Applied data o D o'.fields
  written : ∀ i ∈ D, Written (cfg.thread i)
  waiting : ∀ i, i ∉ D →
    cfg.thread i = updateUser (data i) ∨ cfg.thread i = writing u data i o'.fields
  unique : ∀ i j, i ∉ D → j ∉ D → cfg.thread i = writing u data i o'.fields →
    cfg.thread j = writing u data j o'.fields → i = j

omit [DecidableEq ι] in
theorem inv_start {s : Store} {o : JsonObject} (hd : Disjoint u data)
    (ho : s.record (userKey u) = some o) (hno : o.isset "userno" = true) :
    Inv u data o.fields (start data s) ∅ o := by
  refine ⟨ho, hno, ⟨by simp, fun f _ => rfl⟩, by simp, fun i _ => Or.inl rfl, ?_⟩
  intro i j _ _ hi
  obtain ⟨k, hk, -⟩ := updateUser_reads hd i
  cases hk.symm.trans hi

omit [DecidableEq ι] in
/-- Data does not take the number away. -/
theorem isset_merge_userno {r d : Fields} (hr : r.isset "userno" = true) (hd : Wellformed d) :
    (r.merge d).isset "userno" = true := by
  rw [Fields.isset_eq_true, Fields.get_merge]
  split
  · exact Fields.isset_eq_true.mp (hd.numbered ‹_›)
  · exact Fields.isset_eq_true.mp hr

/-- The write of one more call, on top of the record the others have left. -/
theorem Applied.insert (hd : Disjoint u data) {o r : Fields} {D : Finset ι} {i : ι}
    (h : Applied data o D r) : Applied data o (insert i D) (r.merge (data i)) := by
  constructor
  · intro j hj f hf
    by_cases hfi : f ∈ data i
    · rw [Fields.get_merge_of_mem hfi]
      by_cases hfu : f = "unionid"
      · rw [hfu, hd.unionid i, hd.unionid j]
      · rw [hd.disjoint i j f hfi hf hfu]
    · have hji : j ≠ i := by rintro rfl; exact hfi hf
      rw [Fields.get_merge_of_notMem hfi]
      exact h.1 j (Finset.mem_of_mem_insert_of_ne hj hji) f hf
  · intro f hf
    rw [Fields.get_merge_of_notMem (hf i (Finset.mem_insert_self i D))]
    exact h.2 f fun j hj => hf j (Finset.mem_insert_of_mem hj)

section Step

variable {o : Fields} {cfg : Pool ι Cmd Cmd.Resp Unit Store} {D : Finset ι} {o' : JsonObject} {i : ι}

/-- A call that has written goes on. -/
theorem Inv.step_written (h : Inv u data o cfg D o') (hi : i ∈ D) :
    Inv u data o (cfg.step (exec w) i) D o' := by
  rcases Pool.step_cases (exec w) cfg i with ⟨a, -, hstep⟩ | ⟨c, k, hop, hthread, hstore⟩
  · rwa [hstep]
  · have hwritten := h.written i hi
    rw [hop] at hwritten
    have hother : ∀ j, j ∉ D → (cfg.step (exec w) i).thread j = cfg.thread j := by
      intro j hj
      rw [hthread, Function.update_of_ne (by rintro rfl; exact hj hi)]
    refine ⟨?_, h.numbered, h.applied, ?_, ?_, ?_⟩
    · rw [hstore, exec_record_of_part w hwritten.1, h.record]
    · intro j hj
      rw [hthread]
      by_cases hji : j = i
      · rw [hji, Function.update_self]; exact hwritten.2 _
      · rw [Function.update_of_ne hji]; exact h.written j hj
    · intro j hj
      rw [hother j hj]
      exact h.waiting j hj
    · intro j j' hj hj'
      rw [hother j hj, hother j' hj']
      exact h.unique j j' hj hj'

/-- A call reads the record while no other is about to write it. -/
theorem Inv.step_read (hd : Disjoint u data) (h : Inv u data o cfg D o') (hi : i ∉ D)
    (hp : cfg.thread i = updateUser (data i)) (hex : Exclusive u cfg i) :
    Inv u data o (cfg.step (exec w) i) D o' := by
  obtain ⟨k, hk, hread⟩ := updateUser_reads hd i
  have hop := hp.trans hk
  have hnext : k (exec w (.hget .user (userKey u)) cfg.store).1 = writing u data i o'.fields :=
    hread _ o' h.record h.numbered
  have hthread : (cfg.step (exec w) i).thread =
      Function.update cfg.thread i (writing u data i o'.fields) := by
    rw [Pool.step_of_op hop, hnext]
  have hstore : (cfg.step (exec w) i).store = cfg.store := by
    rw [Pool.step_of_op hop]
    rfl
  have hnone : ∀ j, j ≠ i → cfg.thread j ≠ writing u data j o'.fields := by
    intro j hji hj
    refine hex (by rw [hop]; rfl) j hji ?_
    rw [hj]
    rfl
  refine ⟨by rw [hstore, h.record], h.numbered, h.applied, ?_, ?_, ?_⟩
  · intro j hj
    rw [hthread, Function.update_of_ne (by rintro rfl; exact hi hj)]
    exact h.written j hj
  · intro j hj
    rw [hthread]
    by_cases hji : j = i
    · rw [hji, Function.update_self]; exact Or.inr rfl
    · rw [Function.update_of_ne hji]; exact h.waiting j hj
  · -- only call `i` is about to write now
    have honly : ∀ j, (cfg.step (exec w) i).thread j = writing u data j o'.fields → j = i := by
      intro j hj
      by_contra hji
      rw [hthread, Function.update_of_ne hji] at hj
      exact hnone j hji hj
    intro j j' _ _ hj hj'
    rw [honly j hj, honly j' hj']

/-- The call that has read the record writes it. -/
theorem Inv.step_write (hd : Disjoint u data) (hw : Wellformed (data i))
    (h : Inv u data o cfg D o') (hi : i ∉ D) (hp : cfg.thread i = writing u data i o'.fields) :
    ∃ o'', Inv u data o (cfg.step (exec w) i) (insert i D) o'' := by
  have hmerge : (o'.fields.merge (data i)).Encodable := o'.encodable.merge hw.encodable
  have hthread : (cfg.step (exec w) i).thread =
      Function.update cfg.thread i (do let _ ← updateUserMysql (data i)) := by
    rw [Pool.step_of_op hp]
  have hstore : (cfg.step (exec w) i).store.record (userKey u) = some ⟨_, hmerge⟩ := by
    rw [Pool.step_of_op hp, Fields.jsonEncode_of_encodable hmerge]
    exact Store.record_hset.trans (if_pos ⟨rfl, Store.storable_of_record h.record⟩)
  have hreads : ∀ j, j ∉ insert i D → (cfg.step (exec w) i).thread j = updateUser (data j) := by
    intro j hj
    rw [Finset.mem_insert, not_or] at hj
    rw [hthread, Function.update_of_ne hj.1]
    refine (h.waiting j hj.2).resolve_right fun hwriting => hj.1 ?_
    exact h.unique j i hj.2 hi hwriting hp
  refine ⟨⟨_, hmerge⟩, hstore, isset_merge_userno h.numbered hw, h.applied.insert hd, ?_,
    fun j hj => Or.inl (hreads j hj), ?_⟩
  · intro j hj
    rw [hthread]
    by_cases hji : j = i
    · rw [hji, Function.update_self]; exact written_after i
    · rw [Function.update_of_ne hji]
      exact h.written j (Finset.mem_of_mem_insert_of_ne hj hji)
  · intro j j' hj _ hwriting
    obtain ⟨k, hk, -⟩ := updateUser_reads hd j
    cases (hk.symm.trans (hreads j hj).symm).trans hwriting

end Step

theorem inv_step (hd : Disjoint u data) (hw : ∀ i, Wellformed (data i)) {o : Fields}
    {cfg : Pool ι Cmd Cmd.Resp Unit Store} {i : ι} (h : ∃ D o', Inv u data o cfg D o')
    (hex : Exclusive u cfg i) : ∃ D o', Inv u data o (cfg.step (exec w) i) D o' := by
  obtain ⟨D, o', h⟩ := h
  by_cases hi : i ∈ D
  · exact ⟨D, o', h.step_written w hi⟩
  · rcases h.waiting i hi with hp | hp
    · exact ⟨D, o', h.step_read w hd hi hp hex⟩
    · exact ⟨insert i D, h.step_write w hd (hw i) hi hp⟩

/-- **No lost update.**  Calls on one user with no common field, in any interleaving in which
no call reads the record while another has read it and not yet written it back: when all calls
have ended, the record has the values of all of them, and every other field as before. -/
theorem updates_all_applied (hd : Disjoint u data) (hw : ∀ i, Wellformed (data i)) {s : Store}
    {o : JsonObject} (ho : s.record (userKey u) = some o) (hno : o.isset "userno" = true)
    (schedule : List ι)
    (hex : Guarded (Pool.step (exec w)) (Exclusive u) (start data s) schedule)
    (hended : ∀ i,
      ((schedule.foldl (Pool.step (exec w)) (start data s)).thread i).result = some ()) :
    ∃ o', (schedule.foldl (Pool.step (exec w)) (start data s)).store.record (userKey u) = some o' ∧
      (∀ i f, f ∈ data i → o'.get f = (data i).get f) ∧
      ∀ f, (∀ i, f ∉ data i) → o'.get f = o.get f := by
  obtain ⟨D, o', h⟩ := hex.invariant (I := fun cfg => ∃ D o', Inv u data o.fields cfg D o')
    (fun cfg i h hg => inv_step w hd hw h hg) ⟨∅, o, inv_start hd ho hno⟩
  have hall : ∀ i, i ∈ D := by
    intro i
    by_contra hi
    have hres := hended i
    rcases h.waiting i hi with hp | hp
    · obtain ⟨k, hk, -⟩ := updateUser_reads hd i
      rw [hp, hk] at hres
      cases hres
    · rw [hp] at hres
      cases hres
  exact ⟨o', h.record, fun i f hf => h.applied.1 i (hall i) f hf,
    fun f hf => h.applied.2 f fun i _ => hf i⟩

end Calls

/-! ## A lost update -/

/-- A user's record, as far as the example needs it. -/
def sampleRecord : JsonObject where
  fields := Fields.ofList
    [("unionid", .str "a"), ("userno", .num 100001), ("score", .num 36), ("mobile", .str "0")]
  encodable := Fields.encodes_iff.mp rfl

/-- The user is the only one. -/
def sampleStore : Store := Store.empty.hset .user "u_a" (some sampleRecord)

/-- One call sets the score, the other the mobile number. -/
def sampleData (i : Bool) : Fields :=
  if i then Fields.ofList [("unionid", .str "a"), ("mobile", .str "138")]
  else Fields.ofList [("unionid", .str "a"), ("score", .num 50)]

theorem sampleData_disjoint : Disjoint (.str "a") sampleData where
  unionid := by decide
  isset := by decide
  disjoint := by
    intro i j f hi hj hf
    cases i <;> cases j <;> simp_all [sampleData, Fields.mem_ofList]

/-- Both calls read the record before either writes it: the score that the first call has
written is gone. -/
theorem lost_update :
    ¬ ∀ (w : World) (u : Value) (data : Bool → Fields) (s : Store) (o : JsonObject)
      (schedule : List Bool), Disjoint u data → s.record (userKey u) = some o →
      (∀ i, ((schedule.foldl (Pool.step (exec w)) (start data s)).thread i).result = some ()) →
      ∃ o', (schedule.foldl (Pool.step (exec w)) (start data s)).store.record (userKey u) = some o' ∧
        (∀ i f, f ∈ data i → o'.get f = (data i).get f) ∧
        ∀ f, (∀ i, f ∉ data i) → o'.get f = o.get f := by
  intro h
  obtain ⟨o', ho', hall, -⟩ := h World.plain (.str "a") sampleData sampleStore sampleRecord
    [false, true, false, true, false, true] sampleData_disjoint rfl (by decide +kernel)
  have hscore : o'.get "score" = .num 50 := hall false "score" (by decide)
  have hfinal : ((List.foldl (Pool.step (exec World.plain)) (start sampleData sampleStore)
      [false, true, false, true, false, true]).store.record (userKey (.str "a"))).map
      (fun o => o.get "score") = some (.num 36) := by decide +kernel
  rw [ho', Option.map_some, hscore] at hfinal
  exact absurd hfinal (by decide)

theorem sampleData_wellformed (i : Bool) : Wellformed (sampleData i) := by
  cases i
  · exact ⟨Fields.encodes_iff.mp rfl, by decide⟩
  · exact ⟨Fields.encodes_iff.mp rfl, by decide⟩

/-- One call after the other. -/
theorem updates_in_turn :
    ∃ o', (List.foldl (Pool.step (exec World.plain)) (start sampleData sampleStore)
        [false, false, false, true, true, true]).store.record (userKey (.str "a")) = some o' ∧
      (∀ i f, f ∈ sampleData i → o'.get f = (sampleData i).get f) ∧
      ∀ f, (∀ i, f ∉ sampleData i) → o'.get f = sampleRecord.get f := by
  refine updates_all_applied World.plain sampleData_disjoint sampleData_wellformed
    (o := sampleRecord) rfl rfl [false, false, false, true, true, true] ?_ (by decide +kernel)
  refine ⟨?_, ?_, ?_, ?_, ?_, ?_, trivial⟩ <;> intro _ <;> decide +kernel

end FieldUpdates

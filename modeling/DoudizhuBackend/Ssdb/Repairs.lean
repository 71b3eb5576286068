/-
# Repairs between the operations

`zfix` and `qfix` are commands like the operations, and any client may send them at any time.  In a store
whose records fit together they find nothing to mend and change nothing, with two exceptions: `zfix` deletes the
size of a sorted set whose name has 255 bytes, and `qfix` takes the records of a queue with a longer name for
items.

So a run in which no repair meets an exception reaches the store that its operations reach
(`serve_eq_step`), and what holds of the stores that the operations reach holds in it.
-/
import DoudizhuBackend.GuardedRun
import DoudizhuBackend.Ssdb.QueueFix
import DoudizhuBackend.Ssdb.ReplicaRecords
import DoudizhuBackend.Ssdb.ZsetFix

namespace Ssdb

/-! ## Commands that write -/

/-- A step of the store or a repair. -/
inductive WriteStep where
  | store (s : StoreStep)
  | zfix (name : Bytes)
  | qfix (name : Bytes)

/-- The store after a step. -/
def Db.serve (db : Db) : WriteStep → Db
  | .store s => db.step s
  | .zfix name => (zfix db name).2
  | .qfix name => db.apply (qfix db name).2

/-- The operation of a step that is no repair. -/
def WriteStep.operation? : WriteStep → Option StoreStep
  | .store s => some s
  | .zfix _ => none
  | .qfix _ => none

instance StrayTail.decidable (c : Bytes) : Decidable (StrayTail c) := inferInstanceAs (Decidable (_ ∧ _))

/-- **The repair meets no exception.**  `zfix` is not called for a name of 255 bytes with members, and `qfix` for
no queue with a longer name and items, and for none with a key of another queue in the range of its items.  A
store with `2^63` records is more than an iterator counts. -/
def WriteStep.Finds (db : Db) : WriteStep → Prop
  | .store _ => True
  | .zfix name => (name.length < 255 ∨ zsize db name = 0) ∧ db.entries.length < 2 ^ 63
  | .qfix name => (name.length ≤ 255 ∨ qsize db name = 0) ∧ ∀ p ∈ db.under (queueStart name), ¬ StrayTail p.1

instance WriteStep.decidableFinds (db : Db) (w : WriteStep) : Decidable (w.Finds db) :=
  match w with
  | .store _ => isTrue trivial
  | .zfix _ => inferInstanceAs (Decidable ((_ ∨ _) ∧ _))
  | .qfix _ => inferInstanceAs (Decidable ((_ ∨ _) ∧ _))

/-- A run whose repairs meet no exception. -/
abbrev FindsAll (ws : List WriteStep) : Prop :=
  Guarded Db.serve (fun db w => w.Finds db) OrderedMap.empty ws

/-! ## The repair of a queue -/

/-- **A queue whose records fit together** is left as it is. -/
theorem Db.IsQueue.qfix_eq {db : Db} {name : Bytes} {front : ℕ} {items : List Bytes}
    (h : db.IsQueue name front items) (hname : IsShort name ∨ qsize db name = 0)
    (hclean : ∀ c v, db.get (queueStart name ++ c) = some v → ¬ StrayTail c) :
    db.apply (qfix db name).2 = db := by
  have hitems := h.hasItems
  have hrepaired : db.Repaired (db.apply (qfix db name).2) name front items.length := by
    rcases hname with hname | hsize
    · exact ((qfix_repairs_iff hname hitems).mpr hclean).2
    · -- without items the range is empty
      have hzero : items.length = 0 := by
        rw [h.qsize_eq] at hsize
        omega
      have hkeys := hitems.keys_itemRange hclean
      rw [hzero, List.range'_zero, List.map_nil, List.map_eq_nil_iff] at hkeys
      rw [qfix, iterator_itemRange, hkeys, hzero]
      exact repaired_delete db name front
  apply OrderedMap.ext
  intro k
  by_cases hsize : k = encodeQsizeKey name
  · rw [hsize, hrepaired.size, h.size]
    simp only [List.length_eq_zero_iff]
  · by_cases hfront : k = encodeQitemKey name qfrontSeq
    · rw [hfront, hrepaired.frontPointer, h.frontPointer]
      simp only [List.length_eq_zero_iff]
    · by_cases hback : k = encodeQitemKey name qbackSeq
      · rw [hback, hrepaired.backPointer, h.backPointer]
        simp only [List.length_eq_zero_iff]
      · exact hrepaired.other k hsize hfront hback

/-! ## The repair of a sorted set -/

/-- A first pass that meets no record of the name changes nothing. -/
theorem zfixScores_none (name : Bytes) (es : List (Bytes × Value)) (db : Db)
    (h : ∀ p ∈ es, p.1.head? = some DataType.ZSCORE →
      ∀ key score, decodeZscoreKey p.1 ≠ some (name, key, score)) :
    zfixScores name es db 0 = (db, 0) ∨ zfixScores name es db 0 = (db, -1) := by
  cases es with
  | nil => exact Or.inl rfl
  | cons p es =>
      rw [zfixScores]
      split
      · exact Or.inl rfl
      · rename_i hhead
        split
        · exact Or.inr rfl
        · rename_i name' key score hdecode
          have hne : name ≠ name' := by
            rintro rfl
            exact h p List.mem_cons_self (not_not.mp hhead) key score hdecode
          rw [if_pos hne]
          exact Or.inl rfl

/-- Nor does such a second pass. -/
theorem zfixMembers_none (name : Bytes) (es : List (Bytes × Value)) (db : Db)
    (h : ∀ p ∈ es, p.1.head? = some DataType.ZSET → ∀ key, decodeZsetKey p.1 ≠ some (name, key)) :
    zfixMembers name es db 0 = (db, 0) ∨ zfixMembers name es db 0 = (db, -1) := by
  cases es with
  | nil => exact Or.inl rfl
  | cons p es =>
      rw [zfixMembers]
      split
      · exact Or.inl rfl
      · rename_i hhead
        split
        · exact Or.inr rfl
        · rename_i name' key hdecode
          have hne : name ≠ name' := by
            rintro rfl
            exact h p List.mem_cons_self (not_not.mp hhead) key hdecode
          rw [if_pos hne]
          exact Or.inl rfl

section SortedSets

variable {db : Db} {name : Bytes}

theorem Db.Stored.zsetKeys (h : db.Stored) : db.ZsetKeys := by
  intro k v hget hhead
  obtain ⟨name, key, hfield, rfl⟩ := h.members k v hget hhead
  exact ⟨name, key, hfield.name_short, hfield.key_short, rfl⟩

theorem Db.Stored.zscoreKeys (h : db.Stored) : db.ZscoreKeys := by
  intro k v hget hhead
  obtain ⟨name, key, s, hfield, hs, rfl⟩ := h.store.scores k v hget hhead
  exact ⟨name, key, s, hfield.name_short, hfield.key_short, hs, rfl⟩

/-- **An empty sorted set** is left as it is. -/
theorem Db.Stored.zfix_nil (h : db.Stored) (hsize : zsize db name = 0) : (zfix db name).2 = db := by
  obtain ⟨content, keys, hz⟩ := h.store.zsets name
  have hnil : keys = [] := by
    rw [hz.zsize_eq] at hsize
    exact List.length_eq_zero_iff.mp (by omega)
  have hnone : ∀ key, content key = none := by
    intro key
    rw [← Option.not_isSome_iff_eq_none, ← hz.mem_keys, hnil]
    exact List.not_mem_nil
  have hscores := zfixScores_none name (zfixScoreRange db name) db (by
    intro p hp hhead key score hdecode
    obtain ⟨-, -, hget⟩ := mem_iterator hp
    obtain ⟨name', key', s, hfield, hs, hkey⟩ := h.store.scores p.1 p.2 hget hhead
    rw [hkey, decodeZscoreKey_encode hfield.name_short, Option.some.injEq, Prod.mk.injEq] at hdecode
    rw [hkey, hdecode.1, hz.score key' s hs, hnone, if_neg (by simp)] at hget
    cases hget)
  have hmembers := zfixMembers_none name (zfixMemberRange db name) db (by
    intro p hp hhead key hdecode
    obtain ⟨-, -, hget⟩ := mem_iterator hp
    obtain ⟨name', key', hfield, hkey⟩ := h.members p.1 p.2 hget hhead
    rw [hkey, decodeZsetKey_encode hfield.name_short hfield.key_short, Option.some.injEq, Prod.mk.injEq]
      at hdecode
    rw [hkey, hdecode.1, hz.member, hnone] at hget
    cases hget)
  rcases hscores with hscores | hscores
  · have hfirst : zfixSize name 0 db = db := zfixSize_eq_self hsize
    simp only [zfix, hscores, hfirst]
    rw [if_neg (by decide)]
    rcases hmembers with hmembers | hmembers
    · simp only [hmembers, hfirst]
      rw [if_neg (by decide)]
    · simp only [hmembers, if_true]
  · simp only [zfix, hscores, if_true]

/-- The `ZSET` records of a name are as many as its members. -/
theorem Db.Stored.length_under_zsetStart (h : db.Stored) (hname : IsShort name)
    {content : Bytes → Option ℤ} {keys : List Bytes} (hz : db.IsZset name content keys) :
    (db.under (zsetStart name)).length = keys.length := by
  have hirrefl : Std.Irrefl fun s t : Bytes => s < t := ⟨fun s => List.lt_irrefl s⟩
  have hleft : ((db.under (zsetStart name)).map (·.1)).Nodup := by
    have hsorted := db.under_sorted (zsetStart name)
    rw [List.Nodup, List.pairwise_map]
    refine hsorted.imp ?_
    intro p q hlt heq
    rw [heq] at hlt
    exact List.lt_irrefl _ hlt
  have hright : (keys.map fun key => lenByte key :: key).Nodup :=
    hz.nodup.map fun _ _ heq => (List.cons.inj heq).2
  have hperm : ((db.under (zsetStart name)).map (·.1)).Perm (keys.map fun key => lenByte key :: key) := by
    rw [List.perm_ext_iff_of_nodup hleft hright]
    intro c
    rw [List.mem_map, List.mem_map]
    constructor
    · rintro ⟨⟨c, v⟩, hmem, rfl⟩
      have hget := OrderedMap.mem_under.mp hmem
      obtain ⟨name', key, hname', hkey, heq⟩ := h.zsetKeys _ v hget rfl
      obtain rfl := (zsetStart_prefix_iff hname hname' key).mp ⟨c, heq⟩
      rw [heq, hz.member] at hget
      refine ⟨key, (hz.mem_keys key).mpr ?_, (List.append_cancel_left heq).symm⟩
      rw [← Option.isSome_map, hget]
      rfl
    · rintro ⟨key, hmem, rfl⟩
      obtain ⟨s, hs⟩ := Option.isSome_iff_exists.mp ((hz.mem_keys key).mp hmem)
      refine ⟨(lenByte key :: key, .bytes (str s)), OrderedMap.mem_under.mpr ?_, rfl⟩
      rw [← encodeZsetKey_eq, hz.member, hs]
      rfl
  rw [← List.length_map, hperm.length_eq, List.length_map]

/-- The records of a sorted set in a store agree. -/
theorem Db.Stored.zsetConsistent (h : db.Stored) (hname : IsShort name) :
    db.ZsetConsistent name (zsize db name) := by
  obtain ⟨content, keys, hz⟩ := h.store.zsets name
  refine ⟨?_, ?_, rfl, ?_⟩
  · intro key s
    rw [HasScore]
    refine and_congr_right fun hs => ?_
    rw [hz.score key s hs, zget, hz.member]
    constructor
    · intro hsome
      split at hsome
      · rename_i hcontent
        rw [hcontent]
        rfl
      · cases hsome
    · intro hget
      obtain ⟨t, ht, heq⟩ : ∃ t, content key = some t ∧ str t = str s := by
        simpa [Value.image] using hget
      rw [ht, str_injective heq, if_pos rfl]
      rfl
  · intro key score hget
    rw [zget, hz.member, Option.map_map] at hget
    obtain ⟨s, hs, rfl⟩ := Option.map_eq_some_iff.mp hget
    exact ⟨s, hz.isInt64 key s hs, rfl⟩
  · rw [hz.zsize_eq, h.length_under_zsetStart hname hz]

/-- And a repair can only leave them so, unless the name has 255 bytes. -/
theorem Db.Stored.repairable (h : db.Stored) (hname : name.length < 255) : db.Repairable name := by
  have hshort : IsShort name := hname.le
  have hagree := h.zsetConsistent hshort
  have hempty : zget db name [] = none := by
    by_contra hsome
    obtain ⟨text, htext⟩ := Option.ne_none_iff_exists'.mp hsome
    obtain ⟨v, hv, -⟩ := Option.map_eq_some_iff.mp htext
    obtain ⟨name', key, hfield, heq⟩ := h.members _ v hv rfl
    exact hfield.key_ne_nil (encodeZsetKey_inj hfield.name_short hfield.key_short heq.symm).2
  refine ⟨?_, ?_, ?_, ⟨hempty, ?_⟩, fun hlong => absurd hlong hname.ne⟩
  · intro key s t hs ht
    have hget := ((hagree.corresponds key s).mp hs).2
    rw [((hagree.corresponds key t).mp ht).2] at hget
    exact str_injective (Option.some.inj hget).symm
  · exact fun key _ hscore => ((hagree.corresponds key _).mp hscore).2
  · exact fun key score hget _ => hagree.text key score hget
  · intro s hscore
    have hget := ((hagree.corresponds [] s).mp hscore).2
    rw [hempty] at hget
    cases hget

/-- **A sorted set with a name of fewer than 255 bytes** is left as it is. -/
theorem Db.Stored.zfix_eq_self (h : db.Stored) (hname : name.length < 255)
    (hcount : db.entries.length < 2 ^ 63) : (zfix db name).2 = db := by
  have hsizes := zfix_eq_sizes hname.le h.zsetKeys h.zscoreKeys hcount (h.zsetConsistent hname.le)
    (h.repairable hname)
  rw [hsizes]
  by_cases hmet : ((scoresMet db name).length : ℤ) = zsize db name
  · rw [hmet, zfixSize_eq_self rfl, zfixSize_eq_self rfl]
  · -- the size is written twice, and in the end as it was
    obtain ⟨content, keys, hz⟩ := h.store.zsets name
    rcases eq_or_ne keys [] with hnil | hne
    · have hzero : zsize db name = 0 := by
        rw [hz.zsize_eq, hnil]
        rfl
      rw [← hsizes]
      exact h.zfix_nil hzero
    · have hsize := hz.zsize_eq
      have hpos := List.length_pos_of_ne_nil hne
      apply OrderedMap.ext
      intro k
      by_cases hk : k = encodeZsizeKey name
      · rw [hk, get_zfixSize_self (zsize_zfixSize name (by omega) db) hmet (by omega), hz.size, if_neg hne, hsize]
      · rw [get_zfixSize hk, get_zfixSize hk]

end SortedSets

/-! ## Runs -/

/-- A repair that meets no exception changes nothing. -/
theorem Db.Stored.serve {db : Db} (h : db.Stored) {w : WriteStep} (hw : w.Finds db) :
    db.serve w = (w.operation?.toList).foldl Db.step db := by
  cases w with
  | store s => rfl
  | zfix name =>
      obtain ⟨hlength | hsize, hcount⟩ := hw
      · exact h.zfix_eq_self hlength hcount
      · exact h.zfix_nil hsize
  | qfix name =>
      obtain ⟨front, items, hq⟩ := h.store.queues name
      exact hq.qfix_eq hw.1 fun c v hget => hw.2 (c, v) (OrderedMap.mem_under.mpr hget)

theorem Db.Stored.step {db : Db} (h : db.Stored) (s : StoreStep) : Db.Stored (db.step s) := by
  cases s with
  | write op logType => exact h.write op logType
  | flushdb => exact .empty

/-- Guarded steps from a store of the operations reach one. -/
theorem serve_eq_step {ws : List WriteStep} : ∀ {db : Db}, db.Stored →
    Guarded Db.serve (fun db w => w.Finds db) db ws →
      ws.foldl Db.serve db = (ws.filterMap WriteStep.operation?).foldl Db.step db := by
  induction ws with
  | nil => exact fun _ _ => rfl
  | cons w ws ih =>
      intro db h hw
      have hserve := h.serve hw.1
      have hstored : Db.Stored (db.serve w) := by
        rw [hserve]
        cases w with
        | store s => exact h.step s
        | zfix name => exact h
        | qfix name => exact h
      rw [List.foldl_cons, ih hstored hw.2, hserve]
      cases w with
      | store s => rfl
      | zfix name => rfl
      | qfix name => rfl

/-- **Runs with repairs** that meet no exception reach the stores that the operations reach. -/
theorem FindsAll.eq_step {ws : List WriteStep} (h : FindsAll ws) :
    ws.foldl Db.serve OrderedMap.empty = (ws.filterMap WriteStep.operation?).foldl Db.step OrderedMap.empty :=
  serve_eq_step .empty h

theorem FindsAll.isStore {ws : List WriteStep} (h : FindsAll ws) :
    (ws.foldl Db.serve OrderedMap.empty).IsStore := by
  rw [h.eq_step]
  exact isStore_run _

/-- A queue, a sorted set and a pair whose key begins with `0xff`, with repairs in between. -/
def repairedStore : List WriteStep :=
  [.store (.write (.qpush (ascii "q") (ascii "x") .back) .sync), .qfix (ascii "q"),
    .store (.write (.zset (ascii "z") (ascii "a") (ascii "1")) .sync), .zfix (ascii "z"),
    .store (.write (.zset (ascii "z") (ascii "b") (ascii "2")) .sync),
    .store (.write (.set [255] (ascii "x")) .sync), .zfix (ascii "z"), .qfix (ascii "none")]

theorem findsAll_repairedStore : FindsAll repairedStore := by decide +kernel

end Ssdb

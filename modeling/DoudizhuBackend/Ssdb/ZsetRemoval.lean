/-
# Removals of ranges

`zremrangebyscore`, `zremrangebyrank`, `zpop_front` and `zpop_back` of `ssdb-master/src/proc_zset.cpp`.  A
command walks over a range and removes what it meets.  The walk sees the database as it was when the
iterator was made, so that the removals do not disturb it.

What a walk lists is removed, and nothing else (`zdelLoop_removes`, `zpop_removes`).  So a command is right
exactly if its walk lists the range, which `range_removal` says in terms of the sorted list.
-/
import DoudizhuBackend.Ssdb.Isolation
import DoudizhuBackend.Ssdb.RedisRanges

namespace Ssdb

open Segments

/-! ## What a command changes -/

/-- `db'` is a store with the records of `db`, but for those of one container. -/
structure Changes (c : Container) (db db' : Db) : Prop where
  store : db'.IsStore
  frame : ∀ k, ¬ c.Owns k → db'.get k = db.get k

theorem Changes.refl (c : Container) {db : Db} (h : db.IsStore) : Changes c db db := ⟨h, fun _ _ => rfl⟩

theorem Changes.trans {c : Container} {db db' db'' : Db} (h : Changes c db db') (h' : Changes c db' db'') :
    Changes c db db'' := ⟨h'.store, fun k hk => (h'.frame k hk).trans (h.frame k hk)⟩

/-- An operation that writes one container. -/
theorem Changes.write {c : Container} {db : Db} (h : db.IsStore) (op : Operation)
    (hop : ∀ c', op.Writes c' → c' = c) (logType : BinlogType) :
    Changes c db (db.apply (op.writes db logType)) where
  store := h.step (.write op logType)
  frame := by
    intro k hk
    apply get_apply_of_onKeys (op.onOwn db logType)
    rintro ⟨c', hwrites, howns⟩
    rw [hop c' hwrites] at howns
    exact hk howns

/-- The members of `name` become those of `L` that are not in `M`.  Other sorted sets keep their members,
and no record of another container changes. -/
structure Removes (name : Bytes) (L M : List (ℤ × Bytes)) (db db' : Db) : Prop where
  members : db'.Members name (L.filter (· ∉ M))
  others : ∀ name' ≠ name, IsShort name' → ∀ L', db.Members name' L' → db'.Members name' L'
  changes : Changes (.zset name) db db'

/-! ## Sorted lists -/

theorem eq_of_sorted {L L' : List (ℤ × Bytes)} (hL : L.Pairwise itemLt) (hL' : L'.Pairwise itemLt)
    (hmem : ∀ p, p ∈ L ↔ p ∈ L') : L = L' := by
  refine List.Perm.eq_of_pairwise ?_ hL hL' ?_
  · exact fun p q _ _ hlt hlt' => absurd hlt' (itemLt_asymm hlt)
  · exact (List.perm_ext_iff_of_nodup (nodup_of_sorted hL) (nodup_of_sorted hL')).mpr hmem

/-- What is left tells what was removed. -/
theorem filter_not_mem_inj {L M M' : List (ℤ × Bytes)} (hL : L.Pairwise itemLt) (hM : M.Sublist L)
    (hM' : M'.Sublist L) (heq : L.filter (· ∉ M) = L.filter (· ∉ M')) : M = M' := by
  apply eq_of_sorted (hL.sublist hM) (hL.sublist hM')
  intro p
  by_cases hp : p ∈ L
  · have hiff : p ∈ L.filter (· ∉ M) ↔ p ∈ L.filter (· ∉ M') := by rw [heq]
    simp only [List.mem_filter, hp, true_and, decide_eq_true_eq] at hiff
    exact not_iff_not.mp hiff
  · exact iff_of_false (fun h => hp (hM.subset h)) (fun h => hp (hM'.subset h))

namespace Db.Members

variable {db db' : Db} {name : Bytes} {L L' M : List (ℤ × Bytes)}

/-- A sorted set has one sorted list. -/
theorem unique (h : db.Members name L) (h' : db'.Members name L')
    (hzget : ∀ key, zget db' name key = zget db name key) : L' = L := by
  apply eq_of_sorted h'.sorted h.sorted
  rintro ⟨s, key⟩
  rw [h.mem, h'.mem, hzget]

/-- The keys of members are keys that `zset` accepts. -/
theorem isField (hdb : db.IsStore) (h : db.Members name L) (hname : IsShort name) {p : ℤ × Bytes}
    (hp : p ∈ L) : IsField name p.2 := by
  obtain ⟨content, keys, hz⟩ := hdb.zsets name
  have hrecord : memberRecord p ∈ db.under (scoreStart name) := by
    rw [h.stretch]
    exact List.mem_map_of_mem hp
  obtain ⟨key, s, hfield, hcontent, heq⟩ := hdb.of_mem_under hname hz hrecord
  have hpair := scoreTail_inj (h.isInt64 p hp) (hz.isInt64 key s hcontent) (Prod.mk.inj heq).1
  rwa [hpair]

/-- Another sorted set has the same members. -/
theorem of_changes (h : db.Members name L) (hname : IsShort name) {name' : Bytes} (hne : name ≠ name')
    (hchanges : Changes (.zset name') db db') : db'.Members name L := by
  obtain ⟨L', h'⟩ := hchanges.store.exists_members hname
  have hsame : L' = L := by
    apply h.unique h'
    intro key
    have hother : ¬ (Container.zset name').Owns (encodeZsetKey name key) := by
      intro howns
      exact hne (Container.zset.inj (zset_of_owns howns (Or.inr ⟨key, rfl⟩))).symm
    rw [zget, zget, hchanges.frame _ hother]
  rwa [hsame] at h'

/-! ## One removal -/

/-- **`zdel` removes a member** from the sorted list. -/
theorem zdel_removes (hdb : db.IsStore) (h : db.Members name L) (hname : IsShort name) {p : ℤ × Bytes}
    (hp : p ∈ L) :
    (zdel db name p.2 .sync).1 = 1 ∧ Removes name L [p] db (db.apply (zdel db name p.2 .sync).2) := by
  have hkey := (h.isField hdb hname hp).key_short
  have hget := (h.mem p.2 p.1).mp hp
  have hlong : ¬ (keyLenMax < name.length ∨ keyLenMax < p.2.length) := by
    simp only [IsShort, keyLenMax] at *
    omega
  have hchanges : Changes (.zset name) db (db.apply (zdel db name p.2 .sync).2) :=
    Changes.write hdb (.zdel name p.2) (fun c hc => hc) .sync
  refine ⟨?_, ?_, fun name' hne hname' L' h' => h'.of_changes hname' hne hchanges, hchanges⟩
  · simp only [zdel, zdelOne, if_neg hlong, hget]
    rfl
  · obtain ⟨L', h'⟩ := hchanges.store.exists_members hname
    obtain ⟨content, keys, hz⟩ := hdb.zsets name
    obtain ⟨keys', hz'⟩ := hz.zdel_spec hname hkey .sync
    have hL' : L.filter (· ∉ [p]) = L' := by
      apply eq_of_sorted (h.sorted.filter _) h'.sorted
      rintro ⟨s, key⟩
      rw [List.mem_filter, h'.mem, hz'.zget_eq]
      simp only [List.mem_singleton, decide_eq_true_eq]
      by_cases hsame : key = p.2
      · -- the key has no other score
        rw [hsame, Function.update_self]
        simp only [Option.map_none, reduceCtorEq, iff_false, not_and, not_not]
        exact fun hmem => h.score_unique hmem hp rfl
      · have hne : ¬ (s, key) = p := fun heq => hsame (congrArg Prod.snd heq)
        rw [Function.update_of_ne hsame, ← hz.zget_eq, h.mem]
        simp [hne]
    rwa [hL']

end Db.Members

/-! ## Loops of removals -/

theorem Removes.nil {db : Db} {name : Bytes} {L : List (ℤ × Bytes)} (hdb : db.IsStore)
    (h : db.Members name L) : Removes name L [] db db := by
  refine ⟨?_, fun name' _ _ L' h' => h', .refl _ hdb⟩
  rwa [List.filter_eq_self.mpr fun p _ => by simp]

/-- Removals one after another. -/
theorem Removes.append {db db' db'' : Db} {name : Bytes} {L M M' : List (ℤ × Bytes)}
    (h : Removes name L M db db') (h' : Removes name (L.filter (· ∉ M)) M' db' db'') :
    Removes name L (M ++ M') db db'' := by
  refine ⟨?_, fun name' hne hname' L' hL' => h'.others name' hne hname' L' (h.others name' hne hname' L' hL'),
    h.changes.trans h'.changes⟩
  have hmembers := h'.members
  rw [List.filter_filter] at hmembers
  have hfilter : (L.filter fun q => decide (q ∉ M') && decide (q ∉ M)) = L.filter (· ∉ M ++ M') := by
    apply List.filter_congr
    intro q _
    rw [Bool.eq_iff_iff]
    simp only [Bool.and_eq_true, decide_eq_true_eq, List.mem_append, not_or]
    exact and_comm
  rwa [hfilter] at hmembers

/-- The members behind the first one are still there when it is gone. -/
theorem mem_filter_of_nodup {L M : List (ℤ × Bytes)} {p : ℤ × Bytes} (hM : ∀ q ∈ p :: M, q ∈ L)
    (hnodup : (p :: M).Nodup) : ∀ q ∈ M, q ∈ L.filter (· ∉ [p]) := by
  intro q hq
  have hne : q ≠ p := by
    rintro rfl
    exact (List.nodup_cons.mp hnodup).1 hq
  rw [List.mem_filter]
  exact ⟨hM q (List.mem_cons_of_mem _ hq), by simpa using hne⟩

section Loops

variable {name : Bytes} (hname : IsShort name)

include hname

/-- **The loop removes the members whose keys it is given.** -/
theorem zdelLoop_removes (M : List (ℤ × Bytes)) : ∀ {db : Db} {L : List (ℤ × Bytes)}, db.IsStore →
    db.Members name L → (∀ p ∈ M, p ∈ L) → M.Nodup →
      (zdelLoop name (M.map Prod.snd) db).2.2 = false ∧
        Removes name L M db (zdelLoop name (M.map Prod.snd) db).1 := by
  induction M with
  | nil => exact fun hdb h _ _ => ⟨rfl, .nil hdb h⟩
  | cons p M ih =>
      intro db L hdb h hM hnodup
      obtain ⟨hret, hremoves⟩ := h.zdel_removes hdb hname (hM p List.mem_cons_self)
      obtain ⟨hfailed, hrest⟩ := ih hremoves.changes.store hremoves.members (mem_filter_of_nodup hM hnodup)
        (List.nodup_cons.mp hnodup).2
      have hok : ¬ (zdel db name p.2 .sync).1 = -1 := by
        rw [hret]
        decide
      simp only [List.map_cons, zdelLoop, if_neg hok]
      exact ⟨hfailed, hremoves.append hrest⟩

/-- **`zpop` removes the members that it is given** and replies with them. -/
theorem zpop_removes (M : List (ℤ × Bytes)) : ∀ {db : Db} {L : List (ℤ × Bytes)}, db.IsStore →
    db.Members name L → (∀ p ∈ M, p ∈ L) → M.Nodup →
      (zpop name (M.map itemText) db).2 = itemStrings (M.map itemText) ∧
        Removes name L M db (zpop name (M.map itemText) db).1 := by
  induction M with
  | nil => exact fun hdb h _ _ => ⟨rfl, .nil hdb h⟩
  | cons p M ih =>
      intro db L hdb h hM hnodup
      obtain ⟨hret, hremoves⟩ := h.zdel_removes hdb hname (hM p List.mem_cons_self)
      obtain ⟨hreply, hrest⟩ := ih hremoves.changes.store hremoves.members (mem_filter_of_nodup hM hnodup)
        (List.nodup_cons.mp hnodup).2
      simp only [List.map_cons, itemText, zpop, hret, if_true]
      refine ⟨?_, hremoves.append hrest⟩
      rw [hreply]
      rfl

end Loops

/-! ## What the commands remove -/

/-- A command removes the members of `M` and replies with their number. -/
structure RemovesCounted (name : Bytes) (L M : List (ℤ × Bytes)) (db : Db) (out : Db × List Bytes) : Prop where
  reply : out.2 = replyInt 0 M.length
  removes : Removes name L M db out.1

/-- A command removes the members of `M` and replies with them, in this order. -/
structure Pops (name : Bytes) (L M : List (ℤ × Bytes)) (db : Db) (out : Db × List Bytes) : Prop where
  reply : out.2 = ascii "ok" :: itemStrings (M.map itemText)
  removes : Removes name L M db out.1

section Commands

variable {db : Db} {name : Bytes} {L M W : List (ℤ × Bytes)}

/-- A walk over `W` removes the range `M` exactly if it lists it. -/
theorem zremLoop_iff (hdb : db.IsStore) (h : db.Members name L) (hname : IsShort name) (hW : W.Sublist L)
    (hM : M.Sublist L) : RemovesCounted name L M db (zremLoop name (W.map itemText) db) ↔ W = M := by
  obtain ⟨hfailed, hremoves⟩ :=
    zdelLoop_removes hname W hdb h (fun p hp => hW.subset hp) ((nodup_of_sorted h.sorted).sublist hW)
  have hkeys : (W.map itemText).map (·.1) = W.map Prod.snd := by
    rw [List.map_map]
    rfl
  constructor
  · intro hout
    have hout := hout.removes.members
    simp only [zremLoop, hkeys] at hout
    have hleft := hremoves.members.unique hout fun key => rfl
    exact (filter_not_mem_inj h.sorted hM hW hleft).symm
  · rintro rfl
    constructor
    · simp only [zremLoop, hkeys, hfailed, List.length_map]
      rfl
    · simp only [zremLoop, hkeys]
      exact hremoves

theorem zpop_iff (hdb : db.IsStore) (h : db.Members name L) (hname : IsShort name) (hW : ∀ p ∈ W, p ∈ L)
    (hnodup : W.Nodup) {out : Db × List Bytes} (hout : out = ((zpop name (W.map itemText) db).1,
      ascii "ok" :: (zpop name (W.map itemText) db).2)) : Pops name L M db out ↔ W = M := by
  obtain ⟨hreply, hremoves⟩ := zpop_removes hname W hdb h hW hnodup
  rw [hreply] at hout
  subst hout
  constructor
  · intro hpops
    exact map_itemText_inj.mp (itemStrings_injective (List.cons.inj hpops.reply).2)
  · rintro rfl
    exact ⟨rfl, hremoves⟩

end Commands

/-! ## When the walk lists the range -/

/-- **The ranks for which the removal is right**, in a list of `n` items of which a walk sees `p`.

The count `last - first + 1` wraps.  In a range that ends before it begins, by more than one, it is a
number near `2^64`, and everything that is seen from `first` on goes.  Up to the last rank of all, it
leaves out the end of a list with more than `2^64 - first` items, and the whole list for `first = 0`. -/
def RanksRight (n p first last : ℕ) : Prop :=
  if last < first then first = last + 1 ∨ p ≤ first ∨ 2 ^ 64 + last + 1 ≤ 2 * first
  else if last = 2 ^ 64 - 1 then n ≤ first ∨ (p = n ∧ 0 < first ∧ n + first ≤ 2 ^ 64)
  else n ≤ first ∨ p = n ∨ last < p

/-- What the walk and the range have to do with it. -/
theorem ranksRight_iff {n p first last : ℕ} (hp : p ≤ n) (hfirst : first < 2 ^ 64) (hlast : last < 2 ^ 64) :
    ((min (min (rangeLimit first ((last + 2 ^ 64 - first + 1) % 2 ^ 64)) p) n ≤ first ∧
        min (last + 1) n ≤ first) ∨
      min (min (rangeLimit first ((last + 2 ^ 64 - first + 1) % 2 ^ 64)) p) n = min (last + 1) n) ↔
      RanksRight n p first last := by
  rw [RanksRight, min_eq_left ((min_le_right _ p).trans hp)]
  by_cases hend : last < first
  · rw [if_pos hend]
    rcases eq_or_ne first (last + 1) with heq | hne
    · -- the count is 0
      have hlimit : rangeLimit first ((last + 2 ^ 64 - first + 1) % 2 ^ 64) = first := by
        rw [rangeLimit]
        split_ifs <;> omega
      rw [hlimit]
      omega
    · have hlimit : rangeLimit first ((last + 2 ^ 64 - first + 1) % 2 ^ 64) = 2 ^ 64 + last + 1 - first := by
        rw [rangeLimit]
        split_ifs <;> omega
      rw [hlimit]
      omega
  · rw [if_neg hend]
    by_cases htop : last = 2 ^ 64 - 1
    · have hlimit : rangeLimit first ((last + 2 ^ 64 - first + 1) % 2 ^ 64) = (2 ^ 64 - first) % 2 ^ 64 := by
        rw [rangeLimit]
        split_ifs <;> omega
      rw [if_pos htop, hlimit]
      omega
    · have hlimit : rangeLimit first ((last + 2 ^ 64 - first + 1) % 2 ^ 64) = last + 1 := by
        rw [rangeLimit]
        split_ifs <;> omega
      rw [if_neg htop, hlimit]
      omega

namespace Db.Members

variable {db : Db} {name : Bytes} {L : List (ℤ × Bytes)}

theorem zremrangebyrank_iff (hdb : db.IsStore) (h : db.Members name L) (hname : IsShort name) {first last : ℕ}
    (hfirst : first < 2 ^ 64) (hlast : last < 2 ^ 64) :
    RemovesCounted name L ((L.take (last + 1)).drop first) db
        ((ZsetCommand.zremrangebyrank name first last).run db) ↔
      RanksRight L.length (seen (2 ^ 63 - 1) L).length first last := by
  have hbegin := h.seen_all_prefix
  simp only [ZsetCommand.run, procZremrangebyrank, zrange]
  rw [h.ziterator_all hname, ← List.map_drop, zremLoop_iff hdb h hname
      ((List.drop_sublist _ _).trans ((List.take_sublist _ _).trans hbegin.sublist))
      ((List.drop_sublist _ _).trans (List.take_sublist _ _)), List.prefix_iff_eq_take.mp hbegin,
    List.take_take, segment_eq_iff (nodup_of_sorted h.sorted), List.length_take,
    min_eq_left hbegin.length_le]
  simp only [true_and]
  exact ranksRight_iff hbegin.length_le hfirst hlast

theorem zremrangebyscore_iff (hdb : db.IsStore) (h : db.Members name L) (hname : IsShort name)
    (scoreFirst scoreLast : Bytes) :
    RemovesCounted name L (L.filter fun p => scoreOr scoreFirst (-2 ^ 63) ≤ p.1 ∧
          p.1 ≤ scoreOr scoreLast (2 ^ 63 - 1)) db
        ((ZsetCommand.zremrangebyscore name scoreFirst scoreLast).run db) ↔
      (∀ p ∈ L, scoreOr scoreFirst (-2 ^ 63) ≤ p.1 → ¬ BeyondEnd (scoreOr scoreLast (2 ^ 63 - 1)) p) ∧
        (L.filter fun p => scoreOr scoreFirst (-2 ^ 63) ≤ p.1 ∧
          p.1 ≤ scoreOr scoreLast (2 ^ 63 - 1)).length < 2 ^ 64 := by
  have hseen : (seen (scoreOr scoreLast (2 ^ 63 - 1)) (between L (scoreOr scoreFirst (-2 ^ 63))
      (scoreOr scoreLast (2 ^ 63 - 1)))) <+: between L (scoreOr scoreFirst (-2 ^ 63))
        (scoreOr scoreLast (2 ^ 63 - 1)) := by
    apply seen_prefix (h.sorted.filter _)
    intro p hp
    exact (of_decide_eq_true (List.mem_filter.mp hp).2).2
  have hpart := (List.take_prefix noLimit _).trans hseen
  have hle := hseen.length_le
  have hrange : (between L (scoreOr scoreFirst (-2 ^ 63)) (scoreOr scoreLast (2 ^ 63 - 1))).Sublist L :=
    List.filter_sublist
  simp only [ZsetCommand.run, procZremrangebyscore]
  rw [h.zscan_scores hname, ← length_seen_between_iff, ← between, zremLoop_iff hdb h hname
      (hpart.sublist.trans hrange) hrange,
    prefix_eq_iff hpart List.prefix_rfl, List.length_take, noLimit]
  omega

theorem zpopFront_iff (hdb : db.IsStore) (h : db.Members name L) (hname : IsShort name) (n : ℕ) :
    Pops name L (L.take n) db ((ZsetCommand.zpopFront name n).run db) ↔
      n ≤ (seen (2 ^ 63 - 1) L).length ∨ (seen (2 ^ 63 - 1) L).length = L.length := by
  have hbegin := h.seen_all_prefix
  have hle := hbegin.length_le
  have hpart := (List.take_prefix n _).trans hbegin
  have hscan : zscan db name [] [] [] n = ((seen (2 ^ 63 - 1) L).take n).map itemText := by
    rw [zscan, scanScore, if_neg (by simp), h.ziterator_all hname]
  rw [zpop_iff hdb h hname (W := (seen (2 ^ 63 - 1) L).take n) (fun p hp => hpart.subset hp)
      ((nodup_of_sorted h.sorted).sublist hpart.sublist)
      (by rw [← hscan]; rfl), prefix_eq_iff hpart (List.take_prefix _ _), List.length_take, List.length_take]
  omega

theorem zpopBack_iff (hdb : db.IsStore) (h : db.Members name L) (hname : IsShort name) (n : ℕ) :
    Pops name L (L.reverse.take n) db ((ZsetCommand.zpopBack name n).run db) ↔
      n = 0 ∨ (below L).length = L.length := by
  have hbegin := h.below_prefix
  have hle := hbegin.length_le
  have hscan : zrscan db name [] [] [] n = ((below L).reverse.take n).map itemText := by
    rw [zrscan, scanScore, if_neg (by simp), h.zrevIterator_eq hname, below]
  have hnodup := List.nodup_reverse.mpr (nodup_of_sorted h.sorted)
  rw [zpop_iff hdb h hname (W := (below L).reverse.take n)
      (fun p hp => hbegin.subset (List.mem_reverse.mp (List.mem_of_mem_take hp)))
      ((List.nodup_reverse.mpr ((nodup_of_sorted h.sorted).sublist hbegin.sublist)).sublist
        (List.take_sublist _ _))
      (by rw [← hscan]; rfl), h.reverse_below, List.take_drop, ← List.drop_zero (l := L.reverse.take n),
    segment_eq_iff hnodup, List.length_reverse]
  omega

end Db.Members

/-- **Removals of ranges** are right exactly where their walk lists the range.  After any operations, for
the sorted list `L` of a sorted set:

* `zremrangebyrank` removes the items from one rank to another for the ranks of `RanksRight`;
* `zremrangebyscore` removes the items from one score to another if none of them has the last score and a
  key above `"\xff"`, and there are less than `2^64`;
* `zpop_front` removes the first `n` items if the walk sees as many, or all;
* `zpop_back` removes the last `n` items if none has the greatest score, or `n` is 0.

Where it is right, a command replies with the number of these items or with the items in their order, and
no other record of the database changes. -/
theorem range_removal (steps : List StoreStep) {name : Bytes} (hname : IsShort name) :
    let db := steps.foldl Db.step OrderedMap.empty
    ∃ L : List (ℤ × Bytes), db.Members name L ∧
      (∀ first < 2 ^ 64, ∀ last < 2 ^ 64,
        (RemovesCounted name L ((L.take (last + 1)).drop first) db
            ((ZsetCommand.zremrangebyrank name first last).run db) ↔
          RanksRight L.length (L.filter fun p => ¬ BeyondEnd (2 ^ 63 - 1) p).length first last)) ∧
      (∀ scoreFirst scoreLast,
        let first := scoreOr scoreFirst (-2 ^ 63)
        let last := scoreOr scoreLast (2 ^ 63 - 1)
        let range := L.filter fun p => first ≤ p.1 ∧ p.1 ≤ last
        (RemovesCounted name L range db ((ZsetCommand.zremrangebyscore name scoreFirst scoreLast).run db) ↔
          (∀ p ∈ L, first ≤ p.1 → ¬ BeyondEnd last p) ∧ range.length < 2 ^ 64)) ∧
      (∀ n, Pops name L (L.take n) db ((ZsetCommand.zpopFront name n).run db) ↔
        n ≤ (L.filter fun p => ¬ BeyondEnd (2 ^ 63 - 1) p).length ∨
          ∀ p ∈ L, ¬ BeyondEnd (2 ^ 63 - 1) p) ∧
      ∀ n, Pops name L (L.reverse.take n) db ((ZsetCommand.zpopBack name n).run db) ↔
        n = 0 ∨ ∀ p ∈ L, p.1 ≠ 2 ^ 63 - 1 := by
  intro db
  have hdb : db.IsStore := isStore_run steps
  obtain ⟨L, h⟩ := hdb.exists_members hname
  refine ⟨L, h, ?_, ?_, ?_, ?_⟩
  · exact fun first hfirst last hlast => h.zremrangebyrank_iff hdb hname hfirst hlast
  · exact fun scoreFirst scoreLast => h.zremrangebyscore_iff hdb hname scoreFirst scoreLast
  · intro n
    rw [h.zpopFront_iff hdb hname, length_seen_eq_iff]
    rfl
  · intro n
    have hall : (Db.Members.below L).length = L.length ↔ ∀ p ∈ L, p.1 ≠ 2 ^ 63 - 1 := by
      rw [Db.Members.below, List.length_filter_eq_length_iff]
      refine forall₂_congr fun p hp => ?_
      have hint := h.isInt64 p hp
      rw [IsInt64] at hint
      rw [decide_eq_true_eq]
      omega
    rw [h.zpopBack_iff hdb hname, hall]

/-- Members with the scores 1, 2 and 3. -/
def threeMembers : List StoreStep :=
  [.write (.zset (ascii "z") (ascii "a") (ascii "1")) .sync,
    .write (.zset (ascii "z") (ascii "b") (ascii "2")) .sync,
    .write (.zset (ascii "z") (ascii "c") (ascii "3")) .sync]

theorem range_removal_threeMembers :
    IsShort (ascii "z") ∧
      ∃ L : List (ℤ × Bytes), Db.Members (threeMembers.foldl Db.step OrderedMap.empty) (ascii "z") L ∧
        ∀ n, Pops (ascii "z") L (L.take n) (threeMembers.foldl Db.step OrderedMap.empty)
            ((ZsetCommand.zpopFront (ascii "z") n).run (threeMembers.foldl Db.step OrderedMap.empty)) ↔
          n ≤ (L.filter fun p => ¬ BeyondEnd (2 ^ 63 - 1) p).length ∨
            ∀ p ∈ L, ¬ BeyondEnd (2 ^ 63 - 1) p := by
  have hname : IsShort (ascii "z") := show (ascii "z").length ≤ 255 by decide
  obtain ⟨L, hL, -, -, hfront, -⟩ := range_removal threeMembers hname
  exact ⟨hname, L, hL, hfront⟩

/-- **A range that ends before it begins**: from rank 2 to rank 0 there is nothing, and the member with the
rank 2 goes. -/
theorem zremrangebyrank_outside :
    zget (threeMembers.foldl Db.step OrderedMap.empty) (ascii "z") (ascii "c") = some (ascii "3") ∧
      ((ZsetCommand.zremrangebyrank (ascii "z") 2 0).run (threeMembers.foldl Db.step OrderedMap.empty)).2 =
        [ascii "ok", ascii "1"] ∧
      zget ((ZsetCommand.zremrangebyrank (ascii "z") 2 0).run
        (threeMembers.foldl Db.step OrderedMap.empty)).1 (ascii "z") (ascii "c") = none := by
  refine ⟨?_, ?_, ?_⟩
  · decide +kernel
  · decide +kernel
  · decide +kernel

end Ssdb

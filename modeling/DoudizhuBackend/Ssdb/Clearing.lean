/-
# Clearing

`hclear` of `ssdb-master/src/ssdb/t_hash.cpp`, `zclear` of `proc_zset.cpp` and `qclear` of `proc_queue.cpp`.
Each removes the elements of a container in rounds and ends with a round that finds nothing: `hclear` scans
from the start again, `zclear` goes on behind the last member that it removed, and `qclear` removes one item
in a round.

Every round removes something, so that the rounds end.  Nothing is left of a hash or a queue; of a sorted
set, the members that a walk forward does not see (`clearing`).
-/
import DoudizhuBackend.Ssdb.ZsetRemoval

namespace Ssdb

/-! ## An empty container -/

/-- The container is in a list of names or keys. -/
def Container.Listed (db : Db) : Container → Prop
  | pair key => ∃ first last limit val, (key, val) ∈ Kv.scan db first last limit
  | hash name => ∃ first last limit, name ∈ hlist db first last limit
  | zset name => ∃ first last limit, name ∈ zlist db first last limit
  | queue name => ∃ first last limit, name ∈ qlist db first last limit

/-- **A command clears a container** that has `count` elements: no record of it is left, every read about it
returns nothing, it is in no list, and no other record changes. -/
structure Clears (c : Container) (count : ℤ) (db : Db) (out : Db × List Bytes) : Prop where
  reply : out.2 = replyInt 0 count
  noRecords : ∀ k, c.Owns k → out.1.get k = none
  answers : ∀ r : Read, (∀ c', r.Covers c' → c' = c) → r.result out.1 = r.nothing
  unlisted : ¬ c.Listed out.1
  changes : Changes c db out.1

section Owners

variable {db : Db} (hdb : db.IsStore)

include hdb

/-- A record of a sorted set belongs to it. -/
theorem exists_owner_zset {name key : Bytes} {v : Value} (hget : db.get (encodeZsetKey name key) = some v) :
    ∃ c : Container, c.Owns (encodeZsetKey name key) := by
  obtain ⟨content, keys, hz⟩ := hdb.zsets name
  rw [hz.member] at hget
  obtain ⟨s, hs, -⟩ := Option.map_eq_some_iff.mp hget
  have hint := hz.isInt64 key s hs
  have hscore := hz.score key s hint
  rw [if_pos hs] at hscore
  obtain ⟨name', key', s', hfield, -, heq⟩ := hdb.scores _ _ hscore rfl
  obtain ⟨rfl, rfl, -⟩ := encodeZscoreKey_inj hfield.name_short hfield.key_short heq.symm
  exact ⟨.zset name', Or.inr ⟨key', hfield.name_short, hfield.key_short, Or.inl rfl⟩⟩

theorem exists_owner_zscore {k : Bytes} {v : Value} (hget : db.get k = some v)
    (hhead : k.head? = some DataType.ZSCORE) : ∃ c : Container, c.Owns k := by
  obtain ⟨name, key, s, hfield, -, rfl⟩ := hdb.scores k v hget hhead
  exact ⟨.zset name, Or.inr ⟨key, hfield.name_short, hfield.key_short, Or.inr ⟨_, rfl⟩⟩⟩

theorem exists_owner_hash {k : Bytes} {v : Value} (hget : db.get k = some v)
    (hhead : k.head? = some DataType.HASH) : ∃ c : Container, c.Owns k := by
  obtain ⟨name, key, hfield, rfl⟩ := hdb.hashes.keys k v hget hhead
  exact ⟨.hash name, Or.inr ⟨key, hfield.name_short, hfield.key_short, rfl⟩⟩

/-- A record on which a read depends belongs to a container. -/
theorem Read.DependsOn.exists_owner {r : Read} {k : Bytes} {v : Value} (hget : db.get k = some v)
    (h : r.DependsOn k) : ∃ c : Container, c.Owns k := by
  have hstart : ∀ name, scoreStart name <+: k → ∃ c : Container, c.Owns k := by
    rintro name ⟨t, rfl⟩
    exact exists_owner_zscore hdb hget rfl
  cases r with
  | get key => exact ⟨.pair key, h⟩
  | scan first last limit =>
      obtain ⟨key, rfl, -⟩ := h
      exact ⟨.pair key, rfl⟩
  | hget name key =>
      rw [show k = encodeHashKey name key from h] at hget ⊢
      exact exists_owner_hash hdb hget rfl
  | hsize name => exact ⟨.hash name, Or.inl h⟩
  | hscan name first last limit =>
      obtain ⟨t, rfl⟩ := h
      exact exists_owner_hash hdb hget rfl
  | hlist first last limit =>
      obtain ⟨name, rfl, -⟩ := h
      exact ⟨.hash name, Or.inl rfl⟩
  | zget name key =>
      rw [show k = encodeZsetKey name key from h] at hget ⊢
      exact exists_owner_zset hdb hget
  | zsize name => exact ⟨.zset name, Or.inl h⟩
  | zscan name key scoreStart scoreEnd limit =>
      rcases h with rfl | h
      · exact exists_owner_zset hdb hget
      · exact hstart name h
  | zrange name offset limit => exact hstart name h
  | zrank name key => exact hstart name h
  | zcount name scoreStart scoreEnd =>
      rcases h with rfl | h
      · exact exists_owner_zset hdb hget
      · exact hstart name h
  | qsize name => exact ⟨.queue name, h⟩
  | qget name index => exact ⟨.queue name, h⟩
  | qslice name first last => exact ⟨.queue name, h⟩
  | qlist first last limit =>
      obtain ⟨name, rfl, -⟩ := h
      exact ⟨.queue name, Or.inl rfl⟩

/-- **Without records a container answers every read with nothing.** -/
theorem Read.result_of_noRecords {c : Container} (hnone : ∀ k, c.Owns k → db.get k = none)
    (hshort : ∀ name, c = .zset name → IsShort name) {r : Read} (hr : ∀ c', r.Covers c' → c' = c) :
    r.result db = r.nothing := by
  rw [← r.result_empty]
  apply r.result_congr ⟨.empty, .empty, .empty, fun name => ⟨0, [], Db.isQueue_empty name 0⟩⟩ hdb
  intro k hk
  cases hget : db.get k with
  | none => rfl
  | some v =>
      exfalso
      obtain ⟨c', howns⟩ := hk.exists_owner hdb hget
      rcases covers_or_seenIn howns hk (hdb.scores k v hget) with hcovers | ⟨c'', hcovers, hseen⟩
      · rw [hr c' hcovers] at howns
        rw [hnone k howns] at hget
        cases hget
      · rw [hr c'' hcovers] at hseen
        -- a name that goes on like a record of another one is too long
        cases c with
        | zset name =>
            cases c' with
            | zset name' =>
                obtain ⟨-, -, s, x, -, hx, heq⟩ := hseen
                have hname := hshort name rfl
                have hlength := congrArg List.length heq
                rw [List.length_append, scoreTail, List.length_append, List.length_cons, hx,
                  length_encodeScore] at hlength
                rw [IsShort] at hname
                omega
            | _ => cases hseen
        | _ => cases c' <;> cases hseen

end Owners

/-- A name in a list has its record. -/
theorem get_of_mem_typeWalk {db : Db} {type : Byte} {first last s : Bytes} {limit : ℕ} {p : Bytes × Value}
    (hp : p ∈ (iterator db first last limit).takeWhile fun p => [type] <+: p.1)
    (hs : decodeNameKey p.1 = some s) : db.get (type :: s) = some p.2 := by
  have hstart := List.mem_takeWhile_imp (p := fun q : Bytes × Value => decide ([type] <+: q.1)) hp
  obtain ⟨t, ht⟩ := of_decide_eq_true hstart
  have hget := (mem_iterator ((List.takeWhile_sublist _).subset hp)).2.2
  rw [← ht] at hget hs
  rw [← Option.some.inj hs]
  exact hget

theorem get_of_mem_names {db : Db} {type : Byte} {first last s : Bytes} {limit : ℕ}
    (hs : s ∈ nameIterator type (iterator db first last limit)) : db.get (type :: s) ≠ none := by
  rw [nameIterator_eq, List.mem_filterMap] at hs
  obtain ⟨p, hp, hdecode⟩ := hs
  rw [get_of_mem_typeWalk hp hdecode]
  exact Option.some_ne_none _

theorem Container.get_of_listed {db : Db} {c : Container} (h : c.Listed db) :
    ∃ k, c.Owns k ∧ db.get k ≠ none := by
  cases c with
  | pair key =>
      obtain ⟨first, last, limit, val, hmem⟩ := h
      rw [Kv.scan, kIterator_eq, List.mem_filterMap] at hmem
      obtain ⟨p, hp, hdecode⟩ := hmem
      obtain ⟨s, hs, heq⟩ := Option.map_eq_some_iff.mp hdecode
      obtain ⟨rfl, -⟩ := Prod.mk.inj heq
      refine ⟨encodeKvKey s, rfl, ?_⟩
      rw [encodeKvKey, get_of_mem_typeWalk hp hs]
      exact Option.some_ne_none _
  | hash name =>
      obtain ⟨first, last, limit, hmem⟩ := h
      exact ⟨encodeHsizeKey name, Or.inl rfl, get_of_mem_names hmem⟩
  | zset name =>
      obtain ⟨first, last, limit, hmem⟩ := h
      exact ⟨encodeZsizeKey name, Or.inl rfl, get_of_mem_names hmem⟩
  | queue name =>
      obtain ⟨first, last, limit, hmem⟩ := h
      exact ⟨encodeQsizeKey name, Or.inl rfl, get_of_mem_names hmem⟩

/-- What a command has to do that clears a container. -/
theorem Clears.of_noRecords {c : Container} {count : ℤ} {db : Db} {out : Db × List Bytes}
    (hreply : out.2 = replyInt 0 count) (hnone : ∀ k, c.Owns k → out.1.get k = none)
    (hchanges : Changes c db out.1) (hshort : ∀ name, c = .zset name → IsShort name) :
    Clears c count db out := by
  refine ⟨hreply, hnone, fun r hr => r.result_of_noRecords hchanges.store hnone hshort hr, ?_, hchanges⟩
  intro hlisted
  obtain ⟨k, howns, hget⟩ := c.get_of_listed hlisted
  exact hget (hnone k howns)

/-! ## Hashes -/

theorem hdelLoop_changes (name : Bytes) (keys : List Bytes) : ∀ {db : Db}, db.IsStore →
    Changes (.hash name) db (hdelLoop name keys db).1 := by
  induction keys with
  | nil => exact fun hdb => .refl _ hdb
  | cons key keys ih =>
      intro db hdb
      have hchanges : Changes (.hash name) db (db.apply (hdel db name key .sync).2) :=
        Changes.write hdb (.hdel name key) (fun c hc => hc) .sync
      simp only [hdelLoop]
      split
      · exact hchanges
      · exact hchanges.trans (ih hchanges.store)

theorem hclearRounds_changes (name : Bytes) (fuel : ℕ) : ∀ {db : Db} (count : ℤ), db.IsStore →
    Changes (.hash name) db (hclearRounds name fuel count db).1 := by
  induction fuel with
  | zero => exact fun count hdb => .refl _ hdb
  | succ fuel ih =>
      intro db count hdb
      simp only [hclearRounds]
      split
      · exact .refl _ hdb
      · have hloop := hdelLoop_changes name ((hscan db name [] [] 1000).map (·.1)) hdb
        split
        · exact hloop
        · exact hloop.trans (ih _ hloop.store)

/-- **`hclear` clears a hash.** -/
theorem hclear_clears {db : Db} (hdb : db.IsStore) (name : Bytes) :
    Clears (.hash name) (hsize db name) db ((HashCommand.hclear name).run db) := by
  obtain ⟨hcount, hzero⟩ := hclear_spec hdb.hashes name
  have hchanges : Changes (.hash name) db (hclear name db).1 := hclearRounds_changes name _ 0 hdb
  refine Clears.of_noRecords ?_ ?_ hchanges (fun _ hc => by cases hc)
  · simp only [HashCommand.run, hcount]
  · obtain ⟨content, keys, hh⟩ := hchanges.store.hashes.hashes name
    rw [hh.hsize_eq, Int.natCast_eq_zero, List.length_eq_zero_iff] at hzero
    rintro k (rfl | ⟨key, -, -, rfl⟩)
    · show (hclear name db).1.get _ = none
      rw [hh.size, if_pos hzero]
    · -- a field with a value would be among the keys
      have hnone : content key = none := by
        have hmem := hh.mem_keys key
        rw [hzero] at hmem
        simpa using hmem
      show (hclear name db).1.get _ = none
      rw [hh.field, hnone]
      rfl

/-! ## Queues -/

theorem popLoop_changes (name : Bytes) (e : QueueEnd) (n : ℕ) : ∀ {db : Db}, db.IsStore →
    Changes (.queue name) db (popLoop name e n db).1 := by
  induction n with
  | zero => exact fun hdb => .refl _ hdb
  | succ n ih =>
      intro db hdb
      have hchanges : Changes (.queue name) db (db.apply (qpop db name e .sync).2.2) :=
        Changes.write hdb (.qpop name e) (fun c hc => hc) .sync
      simp only [popLoop]
      split
      · exact hchanges
      · exact hchanges.trans (ih hchanges.store)

/-- **`qclear` clears a queue.** -/
theorem qclear_clears {db : Db} (hdb : db.IsStore) (name : Bytes) :
    Clears (.queue name) (qsize db name) db ((QueueCommand.qclear name).run db) := by
  obtain ⟨front, items, hq⟩ := hdb.queues name
  have hdoes := hq.does_qclear
  obtain ⟨front', hempty⟩ := hdoes.list
  have hchanges : Changes (.queue name) db (procQclear db name).1 := by
    simp only [procQclear]
    exact popLoop_changes name .front _ hdb
  refine Clears.of_noRecords ?_ ?_ hchanges (fun _ hc => by cases hc)
  · rw [hq.qsize_eq]
    exact hdoes.reply
  · rcases hempty.shape with ⟨hsize, hitems⟩ | ⟨front, back, hle, hsize, -⟩
    · rintro k (rfl | ⟨seq, rfl⟩)
      · exact hsize
      · -- the key is that of a number with 64 bits
        have hkey : encodeQitemKey name seq = encodeQitemKey name (ofBigEndian (bigEndian seq)) := by
          rw [encodeQitemKey, encodeQitemKey, bigEndian_ofBigEndian (length_bigEndian seq)]
        have hlt := ofBigEndian_lt (bigEndian seq)
        rw [length_bigEndian] at hlt
        rw [hkey]
        exact hitems _ hlt
    · rw [hempty.size] at hsize
      cases hsize

/-! ## Sorted sets -/

/-- What is seen when a page of it is gone. -/
theorem seen_removed {L : List (ℤ × Bytes)} (hL : L.Pairwise itemLt) (last : ℤ) (n : ℕ) :
    seen last (L.filter (· ∉ (seen last L).take n)) = (seen last L).drop n := by
  have hsorted : (seen last L).Pairwise itemLt := hL.filter _
  have hsplit : ∀ p, p ∈ seen last L ↔ p ∈ (seen last L).take n ∨ p ∈ (seen last L).drop n := by
    intro p
    rw [← List.mem_append, List.take_append_drop]
  have hdisjoint : ∀ p ∈ (seen last L).drop n, p ∉ (seen last L).take n := by
    intro p hdrop htake
    have hpairs := hsorted
    rw [← List.take_append_drop n (seen last L), List.pairwise_append] at hpairs
    exact itemLt_asymm (hpairs.2.2 p htake p hdrop) (hpairs.2.2 p htake p hdrop)
  apply eq_of_sorted ((hL.filter _).filter _) (hsorted.sublist (List.drop_sublist _ _))
  intro p
  have hmem : p ∈ seen last L ↔ p ∈ L ∧ ¬ BeyondEnd last p := by simp [seen]
  rw [seen, List.mem_filter, List.mem_filter]
  simp only [decide_eq_true_eq]
  constructor
  · rintro ⟨⟨hp, htake⟩, hseen⟩
    exact ((hsplit p).mp (hmem.mpr ⟨hp, hseen⟩)).resolve_left htake
  · intro hdrop
    obtain ⟨hp, hseen⟩ := hmem.mp ((hsplit p).mpr (Or.inr hdrop))
    exact ⟨⟨hp, hdisjoint p hdrop⟩, hseen⟩

/-- **The rounds of `zclear`** remove the members that a walk forward sees, and count them.  The cursor of
a round is one behind which the walk sees all of these. -/
theorem zclearRounds_removes {name : Bytes} (hname : IsShort name) (fuel : ℕ) : ∀ {db : Db}
    {L : List (ℤ × Bytes)} {keyStart scoreStart : Bytes} (count : ℤ), db.IsStore → db.Members name L →
      zscan db name keyStart scoreStart [] 1000 = ((seen (2 ^ 63 - 1) L).take 1000).map itemText →
      (seen (2 ^ 63 - 1) L).length < fuel →
        (zclearRounds name fuel keyStart scoreStart count db).2 =
            replyInt 0 (count + (seen (2 ^ 63 - 1) L).length) ∧
          Removes name L (seen (2 ^ 63 - 1) L) db (zclearRounds name fuel keyStart scoreStart count db).1 := by
  induction fuel with
  | zero => exact fun _ _ _ _ hfuel => absurd hfuel (Nat.not_lt_zero _)
  | succ fuel ih =>
      intro db L keyStart scoreStart count hdb h hpage hfuel
      rcases List.eq_nil_or_concat' ((seen (2 ^ 63 - 1) L).take 1000) with hnil | ⟨page, ⟨s, key⟩, hpages⟩
      · -- a page without members is the last one
        have hseen : seen (2 ^ 63 - 1) L = [] := (List.take_eq_nil_iff.mp hnil).resolve_left (by decide)
        simp only [zclearRounds, hpage, hseen, List.length_nil]
        exact ⟨by simp, .nil hdb h⟩
      · have hsub : ((seen (2 ^ 63 - 1) L).take 1000).Sublist L :=
          (List.take_sublist _ _).trans List.filter_sublist
        obtain ⟨hfailed, hremoves⟩ := zdelLoop_removes hname ((seen (2 ^ 63 - 1) L).take 1000) hdb h
          (fun p hp => hsub.subset hp) ((nodup_of_sorted h.sorted).sublist hsub)
        have hrest := seen_removed h.sorted (2 ^ 63 - 1) 1000
        have hmember : (s, key) ∈ L := hsub.subset (by rw [hpages]; simp)
        -- the next page starts behind the last member that is gone
        have hbehind : ((seen (2 ^ 63 - 1) L).drop 1000).filter (fun p => itemLt (s, key) p) =
            (seen (2 ^ 63 - 1) L).drop 1000 := by
          rw [List.filter_eq_self]
          intro p hp
          have hpairs : (seen (2 ^ 63 - 1) L).Pairwise itemLt := h.sorted.filter _
          rw [← List.take_append_drop 1000 (seen (2 ^ 63 - 1) L), List.pairwise_append] at hpairs
          exact decide_eq_true (hpairs.2.2 (s, key) (by rw [hpages]; simp) p hp)
        have hnext := hremoves.members.zscan_behind hname (h.isInt64 _ hmember) key 1000
        rw [hrest, hbehind, ← hrest] at hnext
        have hpos : 0 < ((seen (2 ^ 63 - 1) L).take 1000).length := by
          rw [hpages]
          simp
        rw [List.length_take] at hpos
        obtain ⟨hreply, hmore⟩ := ih (count + ((seen (2 ^ 63 - 1) L).take 1000).length)
          hremoves.changes.store hremoves.members hnext (by rw [hrest, List.length_drop]; omega)
        have hkeys : (((seen (2 ^ 63 - 1) L).take 1000).map itemText).map (·.1) =
            ((seen (2 ^ 63 - 1) L).take 1000).map Prod.snd := by
          rw [List.map_map]
          rfl
        have hlast : (((seen (2 ^ 63 - 1) L).take 1000).map itemText).getLast? = some (key, str s) := by
          rw [hpages]
          simp [itemText]
        rw [hrest] at hreply hmore
        simp only [zclearRounds, hpage, hlast, hkeys, hfailed, List.length_map]
        constructor
        · rw [if_neg (by decide), hreply]
          congr 1
          rw [List.length_take, List.length_drop]
          omega
        · rw [if_neg (by decide)]
          have hall := hremoves.append hmore
          rwa [List.take_append_drop] at hall

/-- A sorted set without members has no records. -/
theorem Db.Members.noRecords {db : Db} {name : Bytes} (hdb : db.IsStore) (h : db.Members name []) :
    ∀ k, (Container.zset name).Owns k → db.get k = none := by
  intro k howns
  by_contra hsome
  obtain ⟨v, hv⟩ := Option.ne_none_iff_exists'.mp hsome
  rcases howns with rfl | ⟨key, -, -, rfl | ⟨score, rfl⟩⟩
  · have hpos := (hdb.zsize_isSome_iff name).mp (by rw [← encodeZsizeKey, hv]; rfl)
    rw [h.size] at hpos
    exact absurd hpos (lt_irrefl _)
  · have hget : zget db name key = some v.image := by
      rw [zget, hv]
      rfl
    obtain ⟨s, hs⟩ := h.text key _ hget
    rw [hs] at hget
    exact absurd ((h.mem key s).mpr hget) List.not_mem_nil
  · rw [encodeZscoreKey_eq, ← scoreStart, ← OrderedMap.mem_under, h.stretch] at hv
    exact absurd hv List.not_mem_nil

/-- `zclear` removes the members that a walk forward sees. -/
theorem zclear_removes {db : Db} {name : Bytes} {L : List (ℤ × Bytes)} (hdb : db.IsStore)
    (h : db.Members name L) (hname : IsShort name) :
    (procZclear name db).2 = replyInt 0 (seen (2 ^ 63 - 1) L).length ∧
      Removes name L (seen (2 ^ 63 - 1) L) db (procZclear name db).1 := by
  have hpage : zscan db name [] [] [] 1000 = ((seen (2 ^ 63 - 1) L).take 1000).map itemText := by
    rw [zscan, scanScore, if_neg (by simp), h.ziterator_all hname]
  have hle := h.seen_all_prefix.length_le.trans h.length_le
  have hrounds := zclearRounds_removes hname (db.entries.length + 1) 0 hdb h hpage (by omega)
  rwa [zero_add] at hrounds

/-- **`zclear` clears a sorted set** exactly if a walk forward sees all members. -/
theorem zclear_clears_iff {db : Db} (hdb : db.IsStore) {name : Bytes} (hname : IsShort name) :
    Clears (.zset name) (zsize db name) db ((ZsetCommand.zclear name).run db) ↔
      ∀ key, zget db name key = some (str (2 ^ 63 - 1)) → ¬ keyLast < key := by
  obtain ⟨L, h⟩ := hdb.exists_members hname
  obtain ⟨hreply, hremoves⟩ := zclear_removes hdb h hname
  have hbeyond : (∀ key, zget db name key = some (str (2 ^ 63 - 1)) → ¬ keyLast < key) ↔
      ∀ p ∈ L, ¬ BeyondEnd (2 ^ 63 - 1) p := by
    simp only [← h.mem]
    constructor
    · rintro hall ⟨s, key⟩ hp ⟨rfl, hkey⟩
      exact hall key hp hkey
    · exact fun hall key hp hkey => hall _ hp ⟨rfl, hkey⟩
  rw [hbeyond, ← length_seen_eq_iff]
  constructor
  · intro hclears
    have hcount := hreply.symm.trans hclears.reply
    rw [h.size] at hcount
    exact replyInt_inj.mp hcount
  · intro hlength
    rw [h.seen_all_prefix.eq_of_length hlength] at hreply hremoves
    have hmembers := hremoves.members
    rw [List.filter_eq_nil_iff.mpr fun p hp => by simpa using hp] at hmembers
    refine Clears.of_noRecords ?_ (hmembers.noRecords hremoves.changes.store) hremoves.changes ?_
    · rw [h.size]
      exact hreply
    · rintro name' hc
      rwa [← Container.zset.inj hc]

/-! ## The rounds end -/

/-- More rounds than those that end with a reply change nothing. -/
theorem zclearRounds_more (name : Bytes) (extra fuel : ℕ) : ∀ {db : Db} {keyStart scoreStart : Bytes}
    {count : ℤ}, (zclearRounds name fuel keyStart scoreStart count db).2 ≠ [] →
      zclearRounds name (fuel + extra) keyStart scoreStart count db =
        zclearRounds name fuel keyStart scoreStart count db := by
  induction fuel with
  | zero => exact fun hreply => absurd rfl hreply
  | succ fuel ih =>
      intro db keyStart scoreStart count hreply
      rw [Nat.succ_add]
      simp only [zclearRounds] at hreply ⊢
      split
      · rfl
      · rename_i hlast
        rw [hlast] at hreply
        dsimp only at hreply
        split
        · rfl
        · rename_i hfailed
          rw [if_neg hfailed] at hreply
          exact ih hreply

/-- More rounds than those that leave no field change nothing. -/
theorem hclearRounds_more (name : Bytes) (extra fuel : ℕ) : ∀ {db : Db} {count : ℤ},
    hscan (hclearRounds name fuel count db).1 name [] [] 1000 = [] →
      hclearRounds name (fuel + extra) count db = hclearRounds name fuel count db := by
  induction fuel with
  | zero =>
      intro db count hnil
      cases extra with
      | zero => rfl
      | succ extra =>
          rw [Nat.zero_add, hclearRounds]
          exact if_pos hnil
  | succ fuel ih =>
      intro db count hnil
      rw [Nat.succ_add]
      simp only [hclearRounds] at hnil ⊢
      split
      · rfl
      · rename_i hne
        rw [if_neg hne] at hnil
        split
        · rfl
        · rename_i hfailed
          rw [if_neg hfailed] at hnil
          exact ih hnil

/-- The loop ends with a round that finds nothing. -/
theorem popLoop_ret (name : Bytes) (e : QueueEnd) (n : ℕ) : ∀ {db : Db} {front : ℕ} {items : List Bytes},
    db.IsQueue name front items → items.length < n → (popLoop name e n db).2.2 = 0 := by
  induction n with
  | zero => exact fun _ hlt => absurd hlt (Nat.not_lt_zero _)
  | succ n ih =>
      intro db front items h hlt
      rcases eq_or_ne items [] with rfl | hne
      · simp only [popLoop, h.qpop_nil]
        rfl
      · obtain ⟨hret, -, hq⟩ := h.qpop_spec e hne .sync
        have hpositive : ¬ (qpop db name e .sync).1 ≤ 0 := by
          rw [hret]
          decide
        have hpos := List.length_pos_of_ne_nil hne
        simp only [popLoop, if_neg hpositive]
        exact ih hq (by rw [e.length_rest]; omega)

theorem popLoop_more (name : Bytes) (e : QueueEnd) (extra n : ℕ) : ∀ {db : Db},
    (popLoop name e n db).2.2 = 0 → popLoop name e (n + extra) db = popLoop name e n db := by
  induction n with
  | zero => exact fun hret => absurd hret (by simp [popLoop])
  | succ n ih =>
      intro db hret
      rw [Nat.succ_add]
      simp only [popLoop] at hret ⊢
      split
      · rfl
      · rename_i hpositive
        rw [if_neg hpositive] at hret
        rw [ih hret]

/-- **Clearing.**  In every store, whose repairs have met no exception, `hclear` clears every hash and `qclear` every queue; `zclear` clears a
sorted set exactly if it has no member with the greatest score and a key above `"\xff"`.  All three end: no
number of rounds above the bounds of the model changes the outcome. -/
theorem clearing (ws : List WriteStep) (hws : FindsAll ws) :
    let db := ws.foldl Db.serve OrderedMap.empty
    (∀ name, Clears (.hash name) (hsize db name) db ((HashCommand.hclear name).run db)) ∧
      (∀ name, Clears (.queue name) (qsize db name) db ((QueueCommand.qclear name).run db)) ∧
      (∀ name, IsShort name →
        (Clears (.zset name) (zsize db name) db ((ZsetCommand.zclear name).run db) ↔
          ∀ key, zget db name key = some (str (2 ^ 63 - 1)) → ¬ keyLast < key)) ∧
      ∀ name extra,
        hclearRounds name (db.entries.length + 1 + extra) 0 db = hclear name db ∧
          (IsShort name →
            zclearRounds name (db.entries.length + 1 + extra) [] [] 0 db = procZclear name db) ∧
          popLoop name .front ((qsize db name).toNat + 1 + extra) db =
            popLoop name .front ((qsize db name).toNat + 1) db := by
  intro db
  have hdb : db.IsStore := hws.isStore
  refine ⟨hclear_clears hdb, qclear_clears hdb, fun name hname => zclear_clears_iff hdb hname, ?_⟩
  intro name extra
  refine ⟨?_, ?_, ?_⟩
  · apply hclearRounds_more
    have hanswer := (hclear_clears hdb name).answers (.hscan name [] [] 1000) fun c hc => hc
    exact Answer.pairs.inj hanswer
  · intro hname
    obtain ⟨L, h⟩ := hdb.exists_members hname
    apply zclearRounds_more
    have hreply := (zclear_removes hdb h hname).1
    rw [procZclear] at hreply
    rw [hreply, replyInt, if_neg (by decide)]
    exact List.cons_ne_nil _ _
  · obtain ⟨front, items, hq⟩ := hdb.queues name
    apply popLoop_more
    apply popLoop_ret name .front _ hq
    rw [hq.qsize_eq]
    omega

theorem clearing_repairedStore :
    FindsAll repairedStore ∧ IsShort (ascii "z") ∧
      (Clears (.zset (ascii "z")) (zsize (repairedStore.foldl Db.serve OrderedMap.empty) (ascii "z"))
          (repairedStore.foldl Db.serve OrderedMap.empty)
          ((ZsetCommand.zclear (ascii "z")).run (repairedStore.foldl Db.serve OrderedMap.empty)) ↔
        ∀ key, zget (repairedStore.foldl Db.serve OrderedMap.empty) (ascii "z") key = some (str (2 ^ 63 - 1)) →
          ¬ keyLast < key) := by
  have hname : IsShort (ascii "z") := show (ascii "z").length ≤ 255 by decide
  exact ⟨findsAll_repairedStore, hname,
    (clearing repairedStore findsAll_repairedStore).2.2.1 (ascii "z") hname⟩

/-- A member with the greatest score behind the end of a walk. -/
def topMember : List WriteStep :=
  [.store (.write (.zset (ascii "z") [255, 1] (ascii "9223372036854775807")) .sync)]

/-- **A member that `zclear` leaves**: the sorted set has one member, the reply is 0, and it is still
there. -/
theorem zclear_leaves_topMember :
    zsize (topMember.foldl Db.serve OrderedMap.empty) (ascii "z") = 1 ∧
      ((ZsetCommand.zclear (ascii "z")).run (topMember.foldl Db.serve OrderedMap.empty)).2 =
        [ascii "ok", ascii "0"] ∧
      zsize ((ZsetCommand.zclear (ascii "z")).run (topMember.foldl Db.serve OrderedMap.empty)).1
        (ascii "z") = 1 := by
  refine ⟨?_, ?_, ?_⟩
  · decide +kernel
  · decide +kernel
  · decide +kernel

end Ssdb

/-
# The members of a sorted set in their order

The `ZSCORE` records of a name are a stretch of the database, and its order is that of scores and keys
(`Db.Members`): the iterators of `t_zset.cpp` walk over the sorted list of the members, forward from
behind a start up to an end with the key `"\xff"`, backward from before a start down to an end with the
empty key.
-/
import DoudizhuBackend.Ssdb.Operations
import DoudizhuBackend.Ssdb.SortedSet
import Mathlib.Data.Set.List

namespace Ssdb

/-! ## The sorted list -/

/-- What a `ZSCORE` key starts with. -/
def scoreStart (name : Bytes) : Bytes := DataType.ZSCORE :: lenByte name :: name

/-- The record of a member behind that start. -/
def memberRecord (p : ℤ × Bytes) : Bytes × Value := (scoreTail p.2 p.1, .bytes [])

/-- **Score keys sort like scores**: under one name by score and then by key, and no score key of another
name stands between two of them. -/
theorem score_keys_sort {name : Bytes} (hname : IsShort name) :
    (∀ (k₁ k₂ : Bytes) (s₁ s₂ : ℤ), IsInt64 s₁ → IsInt64 s₂ →
      (encodeZscoreKey name k₁ (str s₁) < encodeZscoreKey name k₂ (str s₂) ↔
        s₁ < s₂ ∨ s₁ = s₂ ∧ k₁ < k₂)) ∧
    ∀ name' : Bytes, IsShort name' → name' ≠ name → ∀ k₁ k₂ k score₁ score₂ score : Bytes,
      ¬ (encodeZscoreKey name k₁ score₁ ≤ encodeZscoreKey name' k score ∧
        encodeZscoreKey name' k score ≤ encodeZscoreKey name k₂ score₂) := by
  constructor
  · intro k₁ k₂ s₁ s₂ hs₁ hs₂
    rw [encodeZscoreKey_eq, encodeZscoreKey_eq, OrderedMap.append_lt_append_iff, strtoll_str hs₁,
      strtoll_str hs₂, scoreTail_lt_iff hs₁ hs₂]
  · rintro name' hname' hne k₁ k₂ k score₁ score₂ score ⟨hlow, hhigh⟩
    -- what stands between keys with a common start has that start
    have hstart : scoreStart name <+: encodeZscoreKey name' k score := by
      rcases hlow.lt_or_eq with hlt | heq
      · rw [encodeZscoreKey_eq name] at hlt hhigh
        obtain ⟨c, hc, -, -⟩ := OrderedMap.between_append _ hlt hhigh
        exact ⟨c, hc.symm⟩
      · rw [← heq, encodeZscoreKey_eq name]
        exact List.prefix_append _ _
    obtain ⟨t, ht⟩ := hstart
    simp only [scoreStart, encodeZscoreKey, List.cons_append, List.cons.injEq, true_and,
      lenByte_eq_iff, List.append_assoc] at ht
    have hlength : name.length = name'.length := by
      simp only [IsShort] at hname hname'
      omega
    exact hne (List.append_inj ht.2 hlength).1.symm

/-- The names `a` and `b`, with a negative score and a positive one. -/
theorem score_keys_sort_sample :
    IsShort (ascii "a") ∧
      (encodeZscoreKey (ascii "a") (ascii "k") (str (-1)) <
          encodeZscoreKey (ascii "a") (ascii "k") (str 1) ↔
        (-1 : ℤ) < 1 ∨ (-1 : ℤ) = 1 ∧ ascii "k" < ascii "k") := by
  have hname : IsShort (ascii "a") := show (ascii "a").length ≤ 255 by decide
  exact ⟨hname, (score_keys_sort hname).1 _ _ _ _ (by decide) (by decide)⟩

/-- What an iterator returns of a member. -/
def itemText (p : ℤ × Bytes) : Bytes × Bytes := (p.2, str p.1)

theorem itemText_injective : Function.Injective itemText := by
  intro p q h
  obtain ⟨hkey, hscore⟩ := Prod.mk.inj h
  exact Prod.ext (str_injective hscore) hkey

theorem map_itemText_inj {L L' : List (ℤ × Bytes)} : L.map itemText = L'.map itemText ↔ L = L' :=
  (List.map_injective_iff.mpr itemText_injective).eq_iff

/-- **The members of the sorted set `name` in their order**, by score and key, and its `ZSCORE` records
in the same order. -/
structure Db.Members (db : Db) (name : Bytes) (L : List (ℤ × Bytes)) : Prop where
  sorted : L.Pairwise itemLt
  mem : ∀ key s, (s, key) ∈ L ↔ zget db name key = some (str s)
  text : ∀ key score, zget db name key = some score → ∃ s, score = str s
  isInt64 : ∀ p ∈ L, IsInt64 p.1
  key_ne_nil : ∀ p ∈ L, p.2 ≠ []
  stretch : db.under (scoreStart name) = L.map memberRecord
  size : zsize db name = L.length

theorem scoreTail_inj {p q : ℤ × Bytes} (hp : IsInt64 p.1) (hq : IsInt64 q.1)
    (h : scoreTail p.2 p.1 = scoreTail q.2 q.1) : p = q := by
  obtain ⟨hscore, hkey⟩ := List.append_inj h (by simp)
  exact Prod.ext (encodeScore_inj hp hq hscore) (List.cons.inj hkey).2

/-- A record in the stretch of a name is that of a member. -/
theorem Db.IsStore.of_mem_under {db : Db} (h : db.IsStore) {name : Bytes} (hname : IsShort name)
    {content : Bytes → Option ℤ} {keys : List Bytes} (hz : db.IsZset name content keys)
    {c : Bytes} {v : Value} (hc : (c, v) ∈ db.under (scoreStart name)) :
    ∃ key s, IsField name key ∧ content key = some s ∧ (c, v) = memberRecord (s, key) := by
  rw [OrderedMap.mem_under] at hc
  obtain ⟨name', key, s, hfield, hs, hk⟩ := h.scores _ v hc rfl
  rw [encodeZscoreKey_eq, strtoll_str hs] at hk
  have hk' := hk
  simp only [scoreStart, List.cons_append, List.cons.injEq, true_and] at hk'
  obtain ⟨hlen, hrest⟩ := hk'
  -- both names are short, so that equal length bytes are equal lengths
  have hlength : name.length = name'.length := by
    have hname' := hfield.name_short
    rw [lenByte_eq_iff] at hlen
    simp only [IsShort] at hname hname'
    omega
  obtain ⟨rfl, rfl⟩ := List.append_inj hrest hlength
  have hget := hz.score key s hs
  rw [encodeZscoreKey_eq, strtoll_str hs, ← hk, hc] at hget
  split at hget
  · rename_i hcontent
    cases hget
    exact ⟨key, s, hfield, hcontent, rfl⟩
  · cases hget

/-- Every sorted set has its sorted list. -/
theorem Db.IsStore.exists_members {db : Db} (h : db.IsStore) {name : Bytes} (hname : IsShort name) :
    ∃ L, db.Members name L := by
  obtain ⟨content, keys, hz⟩ := h.zsets name
  -- the list is that of the records, each taken for its member
  obtain ⟨M, hM⟩ : ∃ M : List {p : ℤ × Bytes // content p.2 = some p.1 ∧ p.2 ≠ []},
      M.map (fun p => memberRecord p.1) = db.under (scoreStart name) := by
    have hrange : db.under (scoreStart name) ∈ Set.range (List.map fun p :
        {p : ℤ × Bytes // content p.2 = some p.1 ∧ p.2 ≠ []} => memberRecord p.1) := by
      rw [Set.range_list_map]
      rintro ⟨c, v⟩ hc
      obtain ⟨key, s, hfield, hcontent, heq⟩ := h.of_mem_under hname hz hc
      exact ⟨⟨(s, key), hcontent, hfield.key_ne_nil⟩, heq.symm⟩
    exact hrange
  have hmem : ∀ p ∈ M.map Subtype.val, content p.2 = some p.1 ∧ p.2 ≠ [] := by
    intro p hp
    obtain ⟨q, -, rfl⟩ := List.mem_map.mp hp
    exact q.2
  have hint : ∀ p ∈ M.map Subtype.val, IsInt64 p.1 := fun p hp => hz.isInt64 p.2 p.1 (hmem p hp).1
  have hstretch : db.under (scoreStart name) = (M.map Subtype.val).map memberRecord := by
    rw [← hM, List.map_map]
    rfl
  have hsorted : (M.map Subtype.val).Pairwise itemLt := by
    have hunder := db.under_sorted (scoreStart name)
    rw [hstretch, List.pairwise_map] at hunder
    refine hunder.imp_of_mem ?_
    intro p q hp hq hlt
    exact (scoreTail_lt_iff (hint p hp) (hint q hq)).mp hlt
  have hiff : ∀ key s, (s, key) ∈ M.map Subtype.val ↔ content key = some s := by
    intro key s
    constructor
    · exact fun hp => (hmem _ hp).1
    · intro hcontent
      have hs := hz.isInt64 key s hcontent
      have hrecord : memberRecord (s, key) ∈ db.under (scoreStart name) := by
        have hget := hz.score key s hs
        rw [if_pos hcontent, encodeZscoreKey_eq, strtoll_str hs] at hget
        exact OrderedMap.mem_under.mpr hget
      rw [hstretch] at hrecord
      obtain ⟨p, hp, heq⟩ := List.mem_map.mp hrecord
      have hpair : p = (s, key) := scoreTail_inj (hint p hp) hs (Prod.mk.inj heq).1
      rwa [← hpair]
  refine ⟨M.map Subtype.val, hsorted, ?_, ?_, hint, fun p hp => (hmem p hp).2, hstretch, ?_⟩
  · intro key s
    rw [hiff, hz.zget_eq, Option.map_eq_some_iff]
    constructor
    · exact fun hcontent => ⟨s, hcontent, rfl⟩
    · rintro ⟨t, ht, hstr⟩
      rwa [← str_injective hstr]
  · intro key score hget
    rw [hz.zget_eq, Option.map_eq_some_iff] at hget
    obtain ⟨s, -, hstr⟩ := hget
    exact ⟨s, hstr.symm⟩
  · have hperm : ((M.map Subtype.val).map Prod.snd).Perm keys := by
      rw [List.perm_ext_iff_of_nodup _ hz.nodup]
      · intro key
        rw [hz.mem_keys, Option.isSome_iff_exists]
        simp only [← hiff, List.mem_map, Prod.exists, exists_eq_right]
      · rw [List.Nodup, List.pairwise_map]
        refine hsorted.imp_of_mem ?_
        intro p q hp hq hlt hkey
        have hscore : some p.1 = some q.1 := by
          rw [← (hmem p hp).1, ← (hmem q hq).1, hkey]
        rcases hlt with hlt | ⟨-, hlt⟩
        · exact hlt.ne (Option.some.inj hscore)
        · exact hlt.ne hkey
    rw [hz.zsize_eq, ← hperm.length_eq, List.length_map]

/-! ## The walks of the iterators -/

/-- A walk over records of the name returns their members. -/
theorem zIterator_members {name : Bytes} (hname : IsShort name) {L : List (ℤ × Bytes)}
    (hL : ∀ p ∈ L, IsInt64 p.1) :
    zIterator ((L.map memberRecord).map (OrderedMap.attach (scoreStart name))) = L.map itemText := by
  have hrecord : ∀ p ∈ L, decodeZscoreKey (OrderedMap.attach (scoreStart name) (memberRecord p)).1 =
      some (name, p.2, str p.1) := by
    intro p hp
    have hdecode := decodeZscoreKey_encode hname p.2 (str p.1)
    rw [encodeZscoreKey_eq, strtoll_str (hL p hp)] at hdecode
    exact hdecode
  rw [zIterator, List.takeWhile_eq_self_iff.mpr]
  · rw [List.map_map, List.filterMap_map, ← List.filterMap_eq_map]
    apply List.filterMap_congr
    intro p hp
    simp only [Function.comp_apply, hrecord p hp]
    rfl
  · intro q hq
    obtain ⟨r, -, rfl⟩ := List.mem_map.mp hq
    simp [OrderedMap.attach, scoreStart]

/-- What a backward iterator with an end returns. -/
theorem revIterator_eq (db : Db) (first : Bytes) {last : Bytes} (hlast : last ≠ []) (limit : ℕ) :
    revIterator db first last limit =
      ((db.entries.filter fun p => p.1 < first ∧ last ≤ p.1).reverse).take limit := by
  have hbool : (fun p : Bytes × Value => decide (last = [] ∨ last ≤ p.1)) =
      fun p => decide (last ≤ p.1) := by
    funext p
    simp [hlast]
  have hsorted : (db.entries.filter (·.1 < first)).Pairwise fun p q => p.1 < q.1 :=
    db.sorted.filter _
  rw [revIterator, hbool, OrderedMap.takeWhile_eq_filter, List.filter_reverse, List.filter_filter]
  · congr 3
    funext p
    rw [Bool.eq_iff_iff]
    simp [and_comm]
  · rw [List.pairwise_reverse]
    refine hsorted.imp ?_
    intro p q hlt hp
    simp only [decide_eq_true_eq] at hp ⊢
    exact hp.trans hlt.le

/-- A score that is given, or the default. -/
def scoreOr (score : Bytes) (default : ℤ) : ℤ := if score = [] then default else strtoll score

theorem strtoll_start (score : Bytes) :
    strtoll (if score = [] then scoreMin else score) = scoreOr score (-2 ^ 63) := by
  have hmin : strtoll scoreMin = -2 ^ 63 := by decide
  rw [scoreOr, apply_ite strtoll, hmin]

theorem strtoll_end (score : Bytes) :
    strtoll (if score = [] then scoreMax else score) = scoreOr score (2 ^ 63 - 1) := by
  have hmax : strtoll scoreMax = 2 ^ 63 - 1 := by decide
  rw [scoreOr, apply_ite strtoll, hmax]

theorem isInt64_scoreOr (score : Bytes) {default : ℤ} (h : IsInt64 default) :
    IsInt64 (scoreOr score default) := by
  rw [scoreOr]
  split
  · exact h
  · exact isInt64_strtoll score

namespace Db.Members

variable {db : Db} {name : Bytes} {L : List (ℤ × Bytes)}

/-- The members between two bounds of their records. -/
theorem filter_under (h : db.Members name L) {P : Bytes → Prop} {Q : ℤ × Bytes → Prop}
    [DecidablePred P] [DecidablePred Q] (hPQ : ∀ p ∈ L, P (scoreTail p.2 p.1) ↔ Q p) :
    (db.under (scoreStart name)).filter (fun p => P p.1) = (L.filter fun p => Q p).map memberRecord := by
  rw [h.stretch, List.filter_map]
  congr 1
  apply List.filter_congr
  intro p hp
  simp only [Function.comp_apply, memberRecord]
  exact decide_eq_decide.mpr (hPQ p hp)

/-- **A walk forward**: the members behind the start, up to the end with the key `"\xff"`. -/
theorem ziterator_eq (h : db.Members name L) (hname : IsShort name)
    (keyStart scoreStart scoreEnd : Bytes) (limit : ℕ) :
    ziterator db name keyStart scoreStart scoreEnd limit =
      ((L.filter fun p => itemLt (scoreOr scoreStart (-2 ^ 63), keyStart) p ∧
        ¬ itemLt (scoreOr scoreEnd (2 ^ 63 - 1), keyLast) p).take limit).map itemText := by
  have hlast : ∀ score : Bytes, encodeZscoreKey name keyLast score ≠ [] := fun _ => List.cons_ne_nil _ _
  have hs := isInt64_scoreOr scoreStart (show IsInt64 (-2 ^ 63) by decide)
  have he := isInt64_scoreOr scoreEnd (show IsInt64 (2 ^ 63 - 1) by decide)
  simp only [ziterator]
  rw [iterator_eq db _ (hlast _)]
  simp only [encodeZscoreKey_eq, strtoll_start, strtoll_end]
  have hrange := db.filter_between (Ssdb.scoreStart name)
    (scoreTail keyStart (scoreOr scoreStart (-2 ^ 63))) (scoreTail keyLast (scoreOr scoreEnd (2 ^ 63 - 1)))
  have hfilter := h.filter_under
    (P := fun c => scoreTail keyStart (scoreOr scoreStart (-2 ^ 63)) < c ∧
      c ≤ scoreTail keyLast (scoreOr scoreEnd (2 ^ 63 - 1)))
    (Q := fun p => itemLt (scoreOr scoreStart (-2 ^ 63), keyStart) p ∧
      ¬ itemLt (scoreOr scoreEnd (2 ^ 63 - 1), keyLast) p) (by
    intro p hp
    rw [← not_lt, scoreTail_lt_iff hs (h.isInt64 p hp), scoreTail_lt_iff he (h.isInt64 p hp)]
    rfl)
  rw [hfilter] at hrange
  rw [← Ssdb.scoreStart, hrange, ← List.map_take, ← List.map_take]
  exact zIterator_members hname fun p hp => h.isInt64 p (List.mem_of_mem_filter (List.mem_of_mem_take hp))

/-- Where a walk backward starts: before the record of the key `"\xff"` under the score, or of the empty key
under the greatest one. -/
def revStart (scoreStart : Bytes) : ℤ × Bytes :=
  if scoreStart = [] then (2 ^ 63 - 1, []) else (strtoll scoreStart, keyLast)

/-- **A walk backward** from score to score. -/
theorem zrevIterator_scores (h : db.Members name L) (hname : IsShort name) (scoreStart scoreEnd : Bytes)
    (limit : ℕ) :
    zrevIterator db name [] scoreStart scoreEnd limit =
      (((L.filter fun p => itemLt p (revStart scoreStart) ∧
        scoreOr scoreEnd (-2 ^ 63) ≤ p.1).reverse).take limit).map itemText := by
  have hmax : strtoll scoreMax = 2 ^ 63 - 1 := by decide
  have hlast : encodeZscoreKey name [] (if scoreEnd = [] then scoreMin else scoreEnd) ≠ [] :=
    List.cons_ne_nil _ _
  have he := isInt64_scoreOr scoreEnd (show IsInt64 (-2 ^ 63) by decide)
  have hs : IsInt64 (revStart scoreStart).1 := by
    rw [revStart]
    split
    · decide
    · exact isInt64_strtoll scoreStart
  have hfirst : (if scoreStart = [] then encodeZscoreKey name [] scoreMax
      else encodeZscoreKey name keyLast scoreStart) =
        Ssdb.scoreStart name ++ scoreTail (revStart scoreStart).2 (revStart scoreStart).1 := by
    rw [revStart, Ssdb.scoreStart]
    split
    · rw [encodeZscoreKey_eq, hmax]
    · rw [encodeZscoreKey_eq]
  simp only [zrevIterator, if_true]
  rw [hfirst, revIterator_eq db _ hlast, encodeZscoreKey_eq, strtoll_start, ← Ssdb.scoreStart]
  have hrange := db.filter_between_back (Ssdb.scoreStart name)
    (scoreTail (revStart scoreStart).2 (revStart scoreStart).1) (scoreTail [] (scoreOr scoreEnd (-2 ^ 63)))
  have hfilter := h.filter_under
    (P := fun c => c < scoreTail (revStart scoreStart).2 (revStart scoreStart).1 ∧
      scoreTail [] (scoreOr scoreEnd (-2 ^ 63)) ≤ c)
    (Q := fun p => itemLt p (revStart scoreStart) ∧ scoreOr scoreEnd (-2 ^ 63) ≤ p.1) (by
    intro p hp
    have hint := h.isInt64 p hp
    rw [← not_lt, scoreTail_lt_iff hint hs, scoreTail_lt_iff hint he]
    simp only [List.not_lt_nil, and_false, or_false, not_lt]
    rfl)
  rw [hfilter] at hrange
  rw [hrange, ← List.map_reverse, ← List.map_reverse, ← List.map_take, ← List.map_take]
  exact zIterator_members hname fun p hp =>
    h.isInt64 p (List.mem_of_mem_filter (List.mem_reverse.mp (List.mem_of_mem_take hp)))

/-- A walk backward without a start: the members with a score below the greatest one. -/
theorem zrevIterator_eq (h : db.Members name L) (hname : IsShort name) (limit : ℕ) :
    zrevIterator db name [] [] [] limit =
      (((L.filter fun p => p.1 < 2 ^ 63 - 1).reverse).take limit).map itemText := by
  rw [h.zrevIterator_scores hname]
  congr 3
  apply List.filter_congr
  intro p hp
  have hint := h.isInt64 p hp
  simp only [IsInt64] at hint
  simp only [revStart, scoreOr, if_true, itemLt, List.not_lt_nil, and_false, or_false]
  exact decide_eq_decide.mpr ⟨fun hlt => hlt.1, fun hlt => ⟨hlt, hint.1⟩⟩

end Db.Members

end Ssdb

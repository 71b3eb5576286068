/-
# Range queries of a sorted set

`ZIterator` walks over the `ZSCORE` records between two keys of the database.  For a name of at most
255 bytes these are records of that name, and their order is that of the scores (`ziterator_eq`): the
whole range returns the members of the finite map `content`, the smallest score first.
-/
import DoudizhuBackend.Ssdb.Zset

namespace Ssdb

/-! ## Ranges of byte strings -/

/-- Strings of one length are compared before what follows them. -/
theorem append_lt_append_of_lt : ∀ {a b : Bytes}, a < b → a.length = b.length → ∀ x y : Bytes,
    a ++ x < b ++ y := by
  intro a
  induction a with
  | nil =>
      intro b h hlength
      cases b with
      | nil => exact absurd h (List.not_lt_nil _)
      | cons c b => cases hlength
  | cons c a ih =>
      intro b h hlength x y
      cases b with
      | nil => exact absurd h (List.not_lt_nil _)
      | cons d b =>
          rw [List.cons_lt_cons_iff] at h
          rw [List.cons_append, List.cons_append, List.cons_lt_cons_iff]
          rcases h with h | ⟨rfl, h⟩
          · exact Or.inl h
          · exact Or.inr ⟨rfl, ih h (Nat.succ.inj hlength) x y⟩

/-- In a sorted list the entries up to a bound come first. -/
theorem takeWhile_le_eq_filter {es : List (Bytes × Value)} (b : Bytes)
    (hs : es.Pairwise fun p q => p.1 < q.1) :
    es.takeWhile (fun p => p.1 ≤ b) = es.filter fun p => p.1 ≤ b := by
  apply OrderedMap.takeWhile_eq_filter
  refine hs.imp ?_
  intro p q hlt hq
  simp only [decide_eq_true_eq] at hq ⊢
  exact hlt.le.trans hq

/-- What an iterator with an end returns: the entries in the range, up to the limit. -/
theorem iterator_eq (db : Db) (first : Bytes) {last : Bytes} (hlast : last ≠ []) (limit : ℕ) :
    iterator db first last limit =
      (db.entries.filter fun p => first < p.1 ∧ p.1 ≤ last).take limit := by
  have hbool : (fun p : Bytes × Value => decide (last = [] ∨ p.1 ≤ last)) = fun p => decide (p.1 ≤ last) := by
    funext p
    simp [hlast]
  rw [iterator, hbool, takeWhile_le_eq_filter last (db.after_sorted first), OrderedMap.after,
    List.filter_filter]
  congr 2
  funext p
  rw [Bool.eq_iff_iff]
  simp [and_comm]

/-! ## The order of scores -/

theorem encodeScore_lt {s s' : ℤ} (hs : IsInt64 s) (hs' : IsInt64 s') (h : s < s') :
    encodeScore s < encodeScore s' := by
  obtain ⟨hlow, hhigh⟩ := hs
  obtain ⟨hlow', hhigh'⟩ := hs'
  rw [encodeScore, encodeScore, List.cons_lt_cons_iff]
  by_cases hneg' : s' < 0
  · -- both negative: the two's complements are `s + 2^64` and `s' + 2^64`
    rw [if_pos hneg', if_pos (h.trans hneg')]
    refine Or.inr ⟨rfl, bigEndian_lt ?_ (emod_toNat_lt s')⟩
    omega
  · rw [if_neg hneg']
    by_cases hneg : s < 0
    · rw [if_pos hneg]
      exact Or.inl (by decide)
    · rw [if_neg hneg]
      refine Or.inr ⟨rfl, bigEndian_lt ?_ (emod_toNat_lt s')⟩
      omega

/-- What stands behind the name in a `ZSCORE` key. -/
def scoreTail (key : Bytes) (s : ℤ) : Bytes := encodeScore s ++ equalSign :: key

theorem encodeZscoreKey_eq (name key score : Bytes) :
    encodeZscoreKey name key score =
      (DataType.ZSCORE :: lenByte name :: name) ++ scoreTail key (strtoll score) := by
  simp [encodeZscoreKey, scoreTail]

/-- Records are ordered by score and key. -/
theorem scoreTail_lt_iff {key key' : Bytes} {s s' : ℤ} (hs : IsInt64 s) (hs' : IsInt64 s') :
    scoreTail key s < scoreTail key' s' ↔ s < s' ∨ s = s' ∧ key < key' := by
  have hlt : ∀ {key key' : Bytes} {s s' : ℤ}, IsInt64 s → IsInt64 s' → s < s' →
      scoreTail key s < scoreTail key' s' := fun hs hs' h =>
    append_lt_append_of_lt (encodeScore_lt hs hs' h) (by simp) _ _
  have hsame : ∀ {key key' : Bytes} (s : ℤ), key < key' → scoreTail key s < scoreTail key' s := by
    intro key key' s h
    apply List.append_left_lt
    rw [List.cons_lt_cons_iff]
    exact Or.inr ⟨rfl, h⟩
  constructor
  · intro h
    rcases lt_trichotomy s s' with hss | rfl | hss
    · exact Or.inl hss
    · rcases lt_trichotomy key key' with hkk | rfl | hkk
      · exact Or.inr ⟨rfl, hkk⟩
      · exact absurd h (lt_irrefl _)
      · exact absurd h (hsame s hkk).asymm
    · exact absurd h (hlt hs' hs hss).asymm
  · rintro (h | ⟨rfl, h⟩)
    · exact hlt hs hs' h
    · exact hsame s h

/-! ## The records in a range -/

/-- The key of a `ZSCORE` record that `zset` writes. -/
def IsScoreKey (k : Bytes) : Prop :=
  ∃ name key s, IsShort name ∧ IsShort key ∧ IsInt64 s ∧ k = encodeZscoreKey name key (str s)

/-- Every `ZSCORE` record is one that `zset` writes. -/
def Db.ZscoreKeys (db : Db) : Prop :=
  ∀ k v, db.get k = some v → k.head? = some DataType.ZSCORE → IsScoreKey k

/-- The member of a `ZSCORE` record. -/
def scoreRecord (p : Bytes × Value) : Bytes × ℤ :=
  match decodeZscoreKey p.1 with
  | some (_, key, score) => (key, strtoll score)
  | none => ([], 0)

theorem scoreRecord_encode {name : Bytes} (hname : IsShort name) (key : Bytes) {s : ℤ}
    (hs : IsInt64 s) (v : Value) : scoreRecord (encodeZscoreKey name key (str s), v) = (key, s) := by
  rw [scoreRecord, decodeZscoreKey_encode hname]
  simp only [strtoll_str hs]

/-- The records between two keys of the sorted set `name`. -/
def scoreRange (db : Db) (name keyStart : Bytes) (s₁ s₂ : ℤ) : List (Bytes × Value) :=
  db.entries.filter fun p =>
    (DataType.ZSCORE :: lenByte name :: name) ++ scoreTail keyStart s₁ < p.1 ∧
      p.1 ≤ (DataType.ZSCORE :: lenByte name :: name) ++ scoreTail keyLast s₂

namespace Db.IsZset

variable {db : Db} {name : Bytes} {content : Bytes → Option ℤ} {keys : List Bytes}

/-- A record in the range of a name is one of its members. -/
theorem of_mem_scoreRange (h : db.IsZset name content keys) (hz : db.ZscoreKeys)
    (hname : IsShort name) {keyStart : Bytes} {s₁ s₂ : ℤ} {p : Bytes × Value}
    (hp : p ∈ scoreRange db name keyStart s₁ s₂) :
    ∃ key s, IsInt64 s ∧ content key = some s ∧ p = (encodeZscoreKey name key (str s), .bytes []) ∧
      scoreTail keyStart s₁ < scoreTail key s ∧ scoreTail key s ≤ scoreTail keyLast s₂ := by
  obtain ⟨k, v⟩ := p
  rw [scoreRange, List.mem_filter, OrderedMap.mem_entries_iff] at hp
  obtain ⟨hget, hrange⟩ := hp
  simp only [decide_eq_true_eq] at hrange
  obtain ⟨c, rfl, hlow, hhigh⟩ := OrderedMap.between_append _ hrange.1 hrange.2
  obtain ⟨name', key, s, hname', -, hs, hk⟩ := hz _ v hget rfl
  rw [encodeZscoreKey_eq, strtoll_str hs, List.cons_append, List.cons_append, List.cons_append,
    List.cons_append] at hk
  obtain ⟨hlen, hrest⟩ := List.cons.inj (List.cons.inj hk).2
  -- both names are short, so that equal length bytes are equal lengths
  have hlength : name.length = name'.length := by
    rw [lenByte_eq_iff] at hlen
    simp only [IsShort] at hname hname'
    omega
  obtain ⟨rfl, rfl⟩ := List.append_inj hrest hlength
  have hkey : (DataType.ZSCORE :: lenByte name :: name) ++ scoreTail key s =
      encodeZscoreKey name key (str s) := by
    rw [encodeZscoreKey_eq, strtoll_str hs]
  rw [hkey, h.score key s hs] at hget
  split at hget
  · rename_i hcontent
    cases hget
    exact ⟨key, s, hs, hcontent, by rw [hkey], hlow, hhigh⟩
  · cases hget

/-- The records of the members in a range are there. -/
theorem mem_scoreRange (h : db.IsZset name content keys) {keyStart key : Bytes} {s₁ s₂ s : ℤ}
    (hcontent : content key = some s) (hlow : scoreTail keyStart s₁ < scoreTail key s)
    (hhigh : scoreTail key s ≤ scoreTail keyLast s₂) :
    (encodeZscoreKey name key (str s), Value.bytes []) ∈ scoreRange db name keyStart s₁ s₂ := by
  have hs := h.isInt64 key s hcontent
  rw [scoreRange, List.mem_filter, OrderedMap.mem_entries_iff, h.score key s hs, if_pos hcontent]
  refine ⟨rfl, ?_⟩
  rw [encodeZscoreKey_eq, strtoll_str hs]
  simp only [decide_eq_true_eq]
  refine ⟨List.append_left_lt hlow, ?_⟩
  rcases hhigh.lt_or_eq with hlt | heq
  · exact (List.append_left_lt hlt).le
  · rw [heq]

theorem scoreRange_sorted (h : db.IsZset name content keys) (hz : db.ZscoreKeys)
    (hname : IsShort name) (keyStart : Bytes) (s₁ s₂ : ℤ) :
    ((scoreRange db name keyStart s₁ s₂).map scoreRecord).Pairwise fun p q => p.2 ≤ q.2 := by
  rw [List.pairwise_map]
  have hsorted : (scoreRange db name keyStart s₁ s₂).Pairwise fun p q => p.1 < q.1 :=
    db.sorted.filter _
  refine hsorted.imp_of_mem ?_
  intro p q hp hq hlt
  obtain ⟨key, s, hs, -, rfl, -, -⟩ := h.of_mem_scoreRange hz hname hp
  obtain ⟨key', s', hs', -, rfl, -, -⟩ := h.of_mem_scoreRange hz hname hq
  rw [scoreRecord_encode hname key hs, scoreRecord_encode hname key' hs']
  by_contra hnot
  have hgt : scoreTail key' s' < scoreTail key s := (scoreTail_lt_iff hs' hs).mpr (Or.inl (not_le.mp hnot))
  simp only [encodeZscoreKey_eq, strtoll_str hs, strtoll_str hs'] at hlt
  exact absurd hlt (List.append_left_lt hgt).asymm

theorem mem_scoreRange_map (h : db.IsZset name content keys) (hz : db.ZscoreKeys)
    (hname : IsShort name) {keyStart key : Bytes} {s₁ s₂ s : ℤ} :
    (key, s) ∈ (scoreRange db name keyStart s₁ s₂).map scoreRecord ↔
      content key = some s ∧ scoreTail keyStart s₁ < scoreTail key s ∧
        scoreTail key s ≤ scoreTail keyLast s₂ := by
  rw [List.mem_map]
  constructor
  · rintro ⟨p, hp, hrecord⟩
    obtain ⟨key', s', hs', hcontent, rfl, hlow, hhigh⟩ := h.of_mem_scoreRange hz hname hp
    rw [scoreRecord_encode hname key' hs'] at hrecord
    obtain ⟨rfl, rfl⟩ := Prod.mk.inj hrecord
    exact ⟨hcontent, hlow, hhigh⟩
  · rintro ⟨hcontent, hlow, hhigh⟩
    refine ⟨_, h.mem_scoreRange hcontent hlow hhigh, ?_⟩
    exact scoreRecord_encode hname key (h.isInt64 key s hcontent) _

/-- A walk over records of the name returns their members. -/
theorem zIterator_eq (h : db.IsZset name content keys) (hz : db.ZscoreKeys) (hname : IsShort name)
    {keyStart : Bytes} {s₁ s₂ : ℤ} {es : List (Bytes × Value)}
    (hes : ∀ p ∈ es, p ∈ scoreRange db name keyStart s₁ s₂) :
    zIterator es = (es.map scoreRecord).map fun p => (p.1, str p.2) := by
  induction es with
  | nil => rfl
  | cons p es ih =>
      obtain ⟨key, s, hs, -, rfl, -, -⟩ := h.of_mem_scoreRange hz hname (hes p List.mem_cons_self)
      have hrest := ih fun q hq => hes q (List.mem_cons_of_mem _ hq)
      rw [zIterator] at hrest ⊢
      rw [List.takeWhile_cons_of_pos (by simp [encodeZscoreKey]), List.filterMap_cons, hrest,
        List.map_cons, List.map_cons, scoreRecord_encode hname key hs, decodeZscoreKey_encode hname]
      simp only [Option.map_some, strtoll_str hs]

/-- **What a range query returns**: the members in the range, the smallest score first, up to the
limit. -/
theorem ziterator_eq (h : db.IsZset name content keys) (hz : db.ZscoreKeys) (hname : IsShort name)
    (keyStart scoreStart scoreEnd : Bytes) (limit : ℕ) :
    ziterator db name keyStart scoreStart scoreEnd limit =
      (((scoreRange db name keyStart (strtoll (if scoreStart = [] then scoreMin else scoreStart))
        (strtoll (if scoreEnd = [] then scoreMax else scoreEnd))).map scoreRecord).take limit).map
          fun p => (p.1, str p.2) := by
  have hlast : ∀ score : Bytes, encodeZscoreKey name keyLast score ≠ [] := fun _ => List.cons_ne_nil _ _
  simp only [ziterator]
  rw [iterator_eq db _ (hlast _), ← List.map_take]
  simp only [encodeZscoreKey_eq]
  exact h.zIterator_eq hz hname fun p hp => List.mem_of_mem_take hp

end Db.IsZset

/-! ## No other `ZSCORE` records -/

/-- A call that puts no other `ZSCORE` record than those of members. -/
def Write.PutsScores : Write → Prop
  | .put k _ => k.head? = some DataType.ZSCORE → IsScoreKey k
  | _ => True

namespace Db.ZscoreKeys

variable {db : Db}

theorem empty : Db.ZscoreKeys OrderedMap.empty := fun k v hget => by cases hget

theorem put (h : db.ZscoreKeys) {l : Bytes} (v : Value)
    (hl : l.head? = some DataType.ZSCORE → IsScoreKey l) : Db.ZscoreKeys (db.put l v) := by
  intro k w hget hhead
  rw [OrderedMap.get_put] at hget
  split at hget
  · rename_i heq
    rw [heq] at hhead ⊢
    exact hl hhead
  · exact h k w hget hhead

theorem delete (h : db.ZscoreKeys) (l : Bytes) : Db.ZscoreKeys (db.delete l) := by
  intro k w hget hhead
  rw [OrderedMap.get_delete] at hget
  split at hget
  · cases hget
  · exact h k w hget hhead

theorem apply {ws : List Write} (hws : ∀ w ∈ ws, w.PutsScores) : ∀ {db : Db}, db.ZscoreKeys →
    Db.ZscoreKeys (db.apply ws) := by
  induction ws with
  | nil => intro db h; exact h
  | cons w ws ih =>
      intro db h
      have ih := @ih fun w hw => hws w (List.mem_cons_of_mem _ hw)
      have hw := hws w List.mem_cons_self
      cases w with
      | put l v => exact ih (h.put v hw)
      | delete l => exact ih (h.delete l)
      | addLog type cmd key => exact ih h

end Db.ZscoreKeys

/-- Calls on keys of another type. -/
theorem putsScores_of_onKeys {P : Bytes → Prop} (hP : ∀ k, P k → k.head? ≠ some DataType.ZSCORE)
    {ws : List Write} (hws : ∀ w ∈ ws, w.OnKeys P) : ∀ w ∈ ws, w.PutsScores := by
  intro w hw
  have hkeys := hws w hw
  cases w with
  | put k v => exact fun hhead => absurd hhead (hP k hkeys)
  | delete k => trivial
  | addLog type cmd key => trivial

theorem zsizeKey_head (name : Bytes) : (encodeZsizeKey name).head? ≠ some DataType.ZSCORE := by
  show some DataType.ZSIZE ≠ some DataType.ZSCORE
  decide

theorem zsetKey_head (name key : Bytes) : (encodeZsetKey name key).head? ≠ some DataType.ZSCORE := by
  show some DataType.ZSET ≠ some DataType.ZSCORE
  decide

theorem putsScores_incrZsize (db : Db) (name : Bytes) (incr : ℤ) :
    ∀ w ∈ incrZsize db name incr, w.PutsScores := by
  intro w hw
  unfold incrZsize at hw
  dsimp only at hw
  split at hw
  · rw [List.mem_singleton.mp hw]
    trivial
  · rw [List.mem_singleton.mp hw]
    exact fun hhead => absurd hhead (zsizeKey_head name)

theorem putsScores_zsetOne (db : Db) (name key score : Bytes) (logType : BinlogType) :
    ∀ w ∈ (zsetOne db name key score logType).2, w.PutsScores := by
  intro w hw
  unfold zsetOne at hw
  split at hw
  · cases hw
  · split at hw
    · cases hw
    · rename_i hlong
      have hscore : IsScoreKey (encodeZscoreKey name key (filterScore score)) := by
        rw [keyLenMax, not_or] at hlong
        exact ⟨name, key, strtoll score, not_lt.mp hlong.1, not_lt.mp hlong.2, isInt64_strtoll score,
          rfl⟩
      dsimp only at hw
      split at hw
      · simp only [List.mem_cons, List.not_mem_nil, or_false] at hw
        rcases hw with rfl | rfl | rfl
        · exact fun _ => hscore
        · exact fun hhead => absurd hhead (zsetKey_head name key)
        · trivial
      · split at hw
        · cases hw
        · simp only [List.mem_cons, List.not_mem_nil, or_false] at hw
          rcases hw with rfl | rfl | rfl | rfl
          · trivial
          · exact fun _ => hscore
          · exact fun hhead => absurd hhead (zsetKey_head name key)
          · trivial

theorem putsScores_zsetWrites (db : Db) (name key score : Bytes) (logType : BinlogType) :
    ∀ w ∈ zsetWrites db name key score logType, w.PutsScores := by
  intro w hw
  simp only [zsetWrites] at hw
  split at hw
  · rcases List.mem_append.mp hw with hw | hw
    · exact putsScores_zsetOne db name key score logType w hw
    · exact putsScores_incrZsize db name _ w hw
  · exact putsScores_zsetOne db name key score logType w hw

theorem putsScores_zdel (db : Db) (name key : Bytes) (logType : BinlogType) :
    ∀ w ∈ (zdel db name key logType).2, w.PutsScores := by
  intro w hw
  by_cases hshort : IsShort name ∧ IsShort key
  · rw [zdel_writes hshort.1 hshort.2] at hw
    split at hw
    · cases hw
    · simp only [List.mem_cons] at hw
      rcases hw with rfl | rfl | rfl | hw
      · trivial
      · trivial
      · trivial
      · exact putsScores_incrZsize db name (-1) w hw
  · rw [zdel_long hshort] at hw
    cases hw

end Ssdb

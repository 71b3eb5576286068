/-
# Repairing a sorted set

`SSDBImpl::zfix` of `ssdb-master/src/ssdb/t_zset.cpp`.  The first pass goes over the `ZSCORE` records of a name
and sets the `ZSET` record of each key to the score it meets; the second goes over the `ZSET` records and adds
the `ZSCORE` records that are missing; after each pass the size is set to the number of records met.

Neither pass deletes a record, and neither meets all of them: the first begins behind the empty key under the
least score and ends with the key `"\xff"` under the greatest one; the second begins behind the empty key, and
for a name of 255 bytes its end lies before its beginning, because the length byte of the longer name is 0.
`zfix_repairs_iff` says for which contents the repair is right nevertheless.
-/
import DoudizhuBackend.Ssdb.ZsetRanges

namespace Ssdb

/-! ## `zfix` -/

/-- The first pass, over `ZSCORE` records; the size is -1 for a key that cannot be decoded.  Every `Put` goes
to the database at once. -/
def zfixScores (name : Bytes) : List (Bytes × Value) → Db → ℤ → Db × ℤ
  | [], db, size => (db, size)
  | p :: es, db, size =>
      if p.1.head? ≠ some DataType.ZSCORE then (db, size)
      else
        match decodeZscoreKey p.1 with
        | none => (db, -1)
        | some (name', key, score) =>
            if name ≠ name' then (db, size)
            else
              let db :=
                if zget db name key = some score then db
                else db.put (encodeZsetKey name key) (.bytes score)
              zfixScores name es db (size + 1)

/-- The second pass, over `ZSET` records. -/
def zfixMembers (name : Bytes) : List (Bytes × Value) → Db → ℤ → Db × ℤ
  | [], db, size => (db, size)
  | p :: es, db, size =>
      if p.1.head? ≠ some DataType.ZSET then (db, size)
      else
        match decodeZsetKey p.1 with
        | none => (db, -1)
        | some (name', key) =>
            if name ≠ name' then (db, size)
            else
              let db :=
                if (db.get (encodeZscoreKey name key p.2.image)).isSome then db
                else db.put (encodeZscoreKey name key p.2.image) (.bytes [])
              zfixMembers name es db (size + 1)

/-- The size record behind a pass. -/
def zfixSize (name : Bytes) (size : ℤ) (db : Db) : Db :=
  if zsize db name = size then db
  else if size = 0 then db.delete (encodeZsizeKey name)
  else db.put (encodeZsizeKey name) (.int size)

/-- The records of the first pass. -/
def zfixScoreRange (db : Db) (name : Bytes) : List (Bytes × Value) :=
  iterator db (encodeZscoreKey name [] scoreMin) (encodeZscoreKey name keyLast scoreMax) noLimit

/-- The records of the second pass. -/
def zfixMemberRange (db : Db) (name : Bytes) : List (Bytes × Value) :=
  iterator db (encodeZsetKey name []) (encodeZsetKey (name ++ [255]) []) noLimit

/-- `zfix`. -/
def zfix (db : Db) (name : Bytes) : ℤ × Db :=
  let (db, size) := zfixScores name (zfixScoreRange db name) db 0
  if size = -1 then (-1, db)
  else
    let db := zfixSize name size db
    let (db, size) := zfixMembers name (zfixMemberRange db name) db 0
    if size = -1 then (-1, db) else (size, zfixSize name size db)

/-! ## Damaged and repaired sorted sets -/

/-- Every `ZSET` key of the database is one of a name and a key of at most 255 bytes. -/
def Db.ZsetKeys (db : Db) : Prop :=
  ∀ k v, db.get k = some v → k.head? = some DataType.ZSET →
    ∃ name key, IsShort name ∧ IsShort key ∧ k = encodeZsetKey name key

/-- There is a `ZSCORE` record of the key with the score. -/
def HasScore (db : Db) (name key : Bytes) (s : ℤ) : Prop :=
  IsInt64 s ∧ (db.get (encodeZscoreKey name key (str s))).isSome

/-- The start of the `ZSET` keys of a name. -/
def zsetStart (name : Bytes) : Bytes := DataType.ZSET :: lenByte name :: name

/-- **The records of the sorted set agree**: those of keys and those of scores correspond one to one, with equal
scores, and the size is their number `n`. -/
structure Db.ZsetConsistent (db : Db) (name : Bytes) (n : ℤ) : Prop where
  corresponds : ∀ key s, HasScore db name key s ↔ IsInt64 s ∧ zget db name key = some (str s)
  text : ∀ key score, zget db name key = some score → ∃ s, IsInt64 s ∧ score = str s
  size : zsize db name = n
  number : n = (db.under (zsetStart name)).length

/-- A record of the sorted set `name`. -/
def IsZsetRecord (name k : Bytes) : Prop :=
  k = encodeZsizeKey name ∨ (∃ key, k = encodeZsetKey name key) ∨
    ∃ key score, k = encodeZscoreKey name key score

/-- **The repair is right**: what it leaves behind agrees and has the size that it returns, no record of
anything else is changed, and nothing at all where the records agree already. -/
def ZfixRight (db : Db) (name : Bytes) : Prop :=
  (0 ≤ (zfix db name).1 →
    (zfix db name).2.ZsetConsistent name (zfix db name).1 ∧
      ∀ k, ¬ IsZsetRecord name k → (zfix db name).2.get k = db.get k) ∧
  ∀ n, db.ZsetConsistent name n → ∀ k, ((zfix db name).2.get k).map Value.image = (db.get k).map Value.image

/-- **What can be repaired.**  No key has two scores; a score that the first pass does not meet, being the
greatest one with a key above `"\xff"`, is in the `ZSET` record; the text of a `ZSET` record without a score is
that of a score; there are no records of the empty key; and none at all under a name of 255 bytes. -/
structure Db.Repairable (db : Db) (name : Bytes) : Prop where
  unique : ∀ key s t, HasScore db name key s → HasScore db name key t → s = t
  beyondEnd : ∀ key, keyLast < key → HasScore db name key (2 ^ 63 - 1) →
    zget db name key = some (str (2 ^ 63 - 1))
  text : ∀ key score, zget db name key = some score → (∀ s, ¬ HasScore db name key s) →
    ∃ s, IsInt64 s ∧ score = str s
  emptyKey : zget db name [] = none ∧ ∀ s, ¬ HasScore db name [] s
  longName : name.length = 255 → ∀ key, zget db name key = none ∧ ∀ s, ¬ HasScore db name key s

/-! ## The first pass -/

/-- One step of the first pass, for a key and its score. -/
def fixMember (name : Bytes) (db : Db) (p : Bytes × ℤ) : Db :=
  if zget db name p.1 = some (str p.2) then db else db.put (encodeZsetKey name p.1) (.bytes (str p.2))

theorem zfixScores_eq {name : Bytes} (hname : IsShort name) (es : List (Bytes × Value)) :
    ∀ (db : Db) (size : ℤ), (∀ p ∈ es, ∃ key s, IsInt64 s ∧ p.1 = encodeZscoreKey name key (str s)) →
      zfixScores name es db size = ((es.map scoreRecord).foldl (fixMember name) db, size + es.length) := by
  induction es with
  | nil =>
      intro db size _
      simp [zfixScores]
  | cons p es ih =>
      intro db size h
      obtain ⟨key, s, hs, hp⟩ := h p List.mem_cons_self
      obtain ⟨k, v⟩ := p
      obtain rfl : k = encodeZscoreKey name key (str s) := hp
      rw [zfixScores, if_neg (by simp [encodeZscoreKey]), decodeZscoreKey_encode hname, strtoll_str hs]
      simp only [ne_eq, not_true_eq_false, if_false]
      rw [ih _ _ fun q hq => h q (List.mem_cons_of_mem _ hq), List.map_cons, List.foldl_cons,
        scoreRecord_encode hname key hs, List.length_cons]
      refine Prod.ext rfl ?_
      push_cast
      omega

/-- Where the records have the scores already, the first pass does nothing. -/
theorem foldl_fixMember_eq_self {name : Bytes} (L : List (Bytes × ℤ)) {db : Db} :
    (∀ p ∈ L, zget db name p.1 = some (str p.2)) → L.foldl (fixMember name) db = db := by
  induction L with
  | nil => exact fun _ => rfl
  | cons p L ih =>
      intro h
      rw [List.foldl_cons, fixMember, if_pos (h p List.mem_cons_self)]
      exact ih fun q hq => h q (List.mem_cons_of_mem _ hq)

section FixMember

variable {name : Bytes} (hname : IsShort name)

include hname

theorem zget_fixMember (db : Db) {p : Bytes × ℤ} (hp : IsShort p.1) (key : Bytes) :
    zget (fixMember name db p) name key = if key = p.1 then some (str p.2) else zget db name key := by
  rw [fixMember]
  split
  · rename_i hsame
    split
    · rename_i hkey
      rw [hkey, hsame]
    · rfl
  · rw [zget, get_put_zset _ _ hname hp]
    split
    · rfl
    · rfl

/-- **After the first pass** the score of a key is one that was met, or what it was when none was met. -/
theorem zget_foldl_fixMember (L : List (Bytes × ℤ)) : ∀ {db : Db}, (∀ p ∈ L, IsShort p.1) → ∀ key,
    (∃ s, (key, s) ∈ L ∧ zget (L.foldl (fixMember name) db) name key = some (str s)) ∨
      ((∀ s, (key, s) ∉ L) ∧ zget (L.foldl (fixMember name) db) name key = zget db name key) := by
  induction L with
  | nil =>
      intro db _ key
      exact Or.inr ⟨fun s => List.not_mem_nil, rfl⟩
  | cons p L ih =>
      intro db hL key
      rw [List.foldl_cons]
      rcases ih (fun q hq => hL q (List.mem_cons_of_mem _ hq)) key with ⟨s, hs, hget⟩ | ⟨hnot, hget⟩
      · exact Or.inl ⟨s, List.mem_cons_of_mem _ hs, hget⟩
      · -- no later record of the key
        rw [zget_fixMember hname db (hL p List.mem_cons_self)] at hget
        split at hget
        · rename_i hkey
          exact Or.inl ⟨p.2, by rw [hkey]; exact List.mem_cons_self, hget⟩
        · rename_i hkey
          refine Or.inr ⟨?_, hget⟩
          intro s hs
          rcases List.mem_cons.mp hs with heq | hs
          · exact hkey (congrArg Prod.fst heq)
          · exact hnot s hs

end FixMember

/-- The first pass changes `ZSET` records of the name. -/
theorem get_foldl_fixMember {name k : Bytes} (hk : ∀ key, k ≠ encodeZsetKey name key) (L : List (Bytes × ℤ)) :
    ∀ {db : Db}, (L.foldl (fixMember name) db).get k = db.get k := by
  induction L with
  | nil => intro db; rfl
  | cons p L ih =>
      intro db
      rw [List.foldl_cons, ih, fixMember]
      split
      · rfl
      · exact OrderedMap.get_put_of_ne _ _ (hk p.1)

theorem Db.ZsetKeys.put_zset {db : Db} (h : db.ZsetKeys) {name key : Bytes} (hname : IsShort name)
    (hkey : IsShort key) (v : Value) : Db.ZsetKeys (db.put (encodeZsetKey name key) v) := by
  intro k w hget hhead
  rw [OrderedMap.get_put] at hget
  split at hget
  · rename_i heq
    exact ⟨name, key, hname, hkey, heq⟩
  · exact h k w hget hhead

theorem Db.ZsetKeys.foldl_fixMember {name : Bytes} (hname : IsShort name) (L : List (Bytes × ℤ)) :
    ∀ {db : Db}, (∀ p ∈ L, IsShort p.1) → db.ZsetKeys → Db.ZsetKeys (L.foldl (fixMember name) db) := by
  induction L with
  | nil => intro db _ h; exact h
  | cons p L ih =>
      intro db hL h
      rw [List.foldl_cons]
      apply ih fun q hq => hL q (List.mem_cons_of_mem _ hq)
      rw [fixMember]
      split
      · exact h
      · exact h.put_zset hname (hL p List.mem_cons_self) _

/-- The keys and scores that the first pass meets. -/
def scoresMet (db : Db) (name : Bytes) : List (Bytes × ℤ) := (zfixScoreRange db name).map scoreRecord

/-- A `ZSCORE` record under the start of a name is one of the name. -/
theorem eq_of_scoreStart {name name' key score c : Bytes} (hname : IsShort name) (hname' : IsShort name')
    (h : scoreStart name ++ c = encodeZscoreKey name' key score) : name = name' := by
  simp only [scoreStart, encodeZscoreKey, List.cons_append, List.cons.injEq, true_and, lenByte_eq_iff,
    List.append_assoc] at h
  have hlength : name.length = name'.length := by
    simp only [IsShort] at hname hname'
    omega
  exact (List.append_inj h.2 hlength).1

theorem zfixScoreRange_eq {db : Db} (hcount : db.entries.length < 2 ^ 63) (name : Bytes) :
    zfixScoreRange db name = db.entries.filter fun p =>
      scoreStart name ++ scoreTail [] (-2 ^ 63) < p.1 ∧
        p.1 ≤ scoreStart name ++ scoreTail keyLast (2 ^ 63 - 1) := by
  have hlast : encodeZscoreKey name keyLast scoreMax ≠ [] := List.cons_ne_nil _ _
  have hmin : strtoll scoreMin = -2 ^ 63 := by decide
  have hmax : strtoll scoreMax = 2 ^ 63 - 1 := by decide
  rw [zfixScoreRange, iterator_eq db _ hlast, encodeZscoreKey_eq, encodeZscoreKey_eq, hmin, hmax,
    List.take_of_length_le, scoreStart]
  have hle := List.length_filter_le (fun p => decide
    (DataType.ZSCORE :: lenByte name :: name ++ scoreTail [] (-2 ^ 63) < p.1 ∧
      p.1 ≤ DataType.ZSCORE :: lenByte name :: name ++ scoreTail keyLast (2 ^ 63 - 1))) db.entries
  simp only [noLimit]
  omega

section ScoresMet

variable {db : Db} {name : Bytes} (hname : IsShort name) (hz : db.ZscoreKeys)
  (hcount : db.entries.length < 2 ^ 63)

include hname hz hcount

theorem of_mem_zfixScoreRange {p : Bytes × Value} (hp : p ∈ zfixScoreRange db name) :
    ∃ key s, IsShort key ∧ IsInt64 s ∧ p.1 = encodeZscoreKey name key (str s) := by
  rw [zfixScoreRange_eq hcount, List.mem_filter, decide_eq_true_eq] at hp
  obtain ⟨hmem, hlow, hhigh⟩ := hp
  obtain ⟨c, hc, -, -⟩ := OrderedMap.between_append _ hlow hhigh
  obtain ⟨name', key, s, hname', hkey, hs, heq⟩ :=
    hz p.1 p.2 (OrderedMap.mem_entries_iff.mp hmem) (by rw [hc]; rfl)
  rw [hc] at heq
  obtain rfl := eq_of_scoreStart hname hname' heq
  exact ⟨key, s, hkey, hs, hc.trans heq⟩

/-- **What the first pass meets**: all scores but two kinds. -/
theorem mem_scoresMet (key : Bytes) (s : ℤ) :
    (key, s) ∈ scoresMet db name ↔ HasScore db name key s ∧ ¬ (s = -2 ^ 63 ∧ key = []) ∧
      ¬ (s = 2 ^ 63 - 1 ∧ keyLast < key) := by
  have hrange : ∀ {t : ℤ}, IsInt64 t → ∀ l : Bytes, (scoreStart name ++ scoreTail [] (-2 ^ 63) <
      scoreStart name ++ scoreTail l t ∧
        scoreStart name ++ scoreTail l t ≤ scoreStart name ++ scoreTail keyLast (2 ^ 63 - 1) ↔
      ¬ (t = -2 ^ 63 ∧ l = []) ∧ ¬ (t = 2 ^ 63 - 1 ∧ keyLast < l)) := by
    intro t ht l
    rw [OrderedMap.append_lt_append_iff, OrderedMap.append_le_append_iff, ← not_lt,
      scoreTail_lt_iff (by decide) ht, scoreTail_lt_iff (by decide) ht]
    simp only [IsInt64] at ht
    constructor
    · rintro ⟨hlow, hhigh⟩
      refine ⟨?_, ?_⟩
      · rintro ⟨rfl, rfl⟩
        rcases hlow with hlow | ⟨-, hlow⟩
        · omega
        · exact (nil_lt_iff _).mp hlow rfl
      · rintro ⟨rfl, hkey⟩
        exact hhigh (Or.inr ⟨rfl, hkey⟩)
    · rintro ⟨hlow, hhigh⟩
      refine ⟨?_, ?_⟩
      · by_cases ht' : t = -2 ^ 63
        · exact Or.inr ⟨ht'.symm, (nil_lt_iff _).mpr fun hl => hlow ⟨ht', hl⟩⟩
        · exact Or.inl (by omega)
      · rintro (hlt | ⟨heq, hkey⟩)
        · omega
        · exact hhigh ⟨heq.symm, hkey⟩
  rw [scoresMet, List.mem_map]
  constructor
  · rintro ⟨⟨k, v⟩, hp, hrecord⟩
    obtain ⟨l, t, hl, ht, rfl⟩ := of_mem_zfixScoreRange hname hz hcount hp
    rw [scoreRecord_encode hname l ht] at hrecord
    obtain ⟨rfl, rfl⟩ := Prod.mk.inj hrecord
    rw [zfixScoreRange_eq hcount, List.mem_filter, decide_eq_true_eq] at hp
    simp only [encodeZscoreKey_eq, strtoll_str ht] at hp
    refine ⟨⟨ht, ?_⟩, (hrange ht l).mp hp.2⟩
    rw [encodeZscoreKey_eq, strtoll_str ht, OrderedMap.mem_entries_iff.mp hp.1]
    rfl
  · rintro ⟨⟨hs, hsome⟩, hin⟩
    obtain ⟨v, hv⟩ := Option.isSome_iff_exists.mp hsome
    refine ⟨(encodeZscoreKey name key (str s), v), ?_, scoreRecord_encode hname key hs v⟩
    rw [zfixScoreRange_eq hcount, List.mem_filter, decide_eq_true_eq]
    refine ⟨OrderedMap.mem_entries_iff.mpr hv, ?_⟩
    simp only [encodeZscoreKey_eq, strtoll_str hs]
    exact (hrange hs key).mpr hin

theorem short_of_mem_scoresMet {p : Bytes × ℤ} (hp : p ∈ scoresMet db name) : IsShort p.1 := by
  obtain ⟨⟨k, v⟩, hq, rfl⟩ := List.mem_map.mp hp
  obtain ⟨key, s, hkey, hs, rfl⟩ := of_mem_zfixScoreRange hname hz hcount hq
  rw [scoreRecord_encode hname key hs]
  exact hkey

end ScoresMet

/-! ## The second pass -/

/-- One step of the second pass, for a key and the text of its score. -/
def addScore (name : Bytes) (db : Db) (p : Bytes × Bytes) : Db :=
  if (db.get (encodeZscoreKey name p.1 p.2)).isSome then db
  else db.put (encodeZscoreKey name p.1 p.2) (.bytes [])

/-- The key and the text of a `ZSET` record. -/
def zsetMember (p : Bytes × Value) : Bytes × Bytes :=
  match decodeZsetKey p.1 with
  | some (_, key) => (key, p.2.image)
  | none => ([], [])

theorem zsetMember_encode {name key : Bytes} (hname : IsShort name) (hkey : IsShort key) (v : Value) :
    zsetMember (encodeZsetKey name key, v) = (key, v.image) := by
  rw [zsetMember, decodeZsetKey_encode hname hkey]

theorem encodeZsetKey_eq (name key : Bytes) : encodeZsetKey name key = zsetStart name ++ lenByte key :: key := rfl

theorem zsetStart_prefix_iff {name name' : Bytes} (hname : IsShort name) (hname' : IsShort name') (key : Bytes) :
    zsetStart name <+: encodeZsetKey name' key ↔ name = name' := by
  constructor
  · rintro ⟨c, hc⟩
    simp only [zsetStart, encodeZsetKey, List.cons_append, List.cons.injEq, true_and, lenByte_eq_iff] at hc
    have hlength : name.length = name'.length := by
      simp only [IsShort] at hname hname'
      omega
    exact (List.append_inj hc.2 hlength).1
  · rintro rfl
    exact List.prefix_append _ _

/-- Behind the record of the empty key are those of all other keys. -/
theorem zsetStart_zero_lt_iff (name : Bytes) {key : Bytes} (hkey : IsShort key) :
    zsetStart name ++ [0] < encodeZsetKey name key ↔ key ≠ [] := by
  rw [encodeZsetKey_eq, OrderedMap.append_lt_append_iff, List.cons_lt_cons_iff, nil_lt_iff]
  constructor
  · rintro (hpos | ⟨-, hne⟩)
    · rintro rfl
      exact absurd hpos (by decide)
    · exact hne
  · intro hne
    left
    rw [Fin.lt_def, lenByte_val hkey]
    exact List.length_pos_iff.mpr hne

/-- Among `ZSET` records, the second pass goes on to the first of another name. -/
theorem zfixMembers_eq {name : Bytes} (hname : IsShort name) (es : List (Bytes × Value)) :
    ∀ (db : Db) (size : ℤ),
      (∀ p ∈ es, ∃ name' key, IsShort name' ∧ IsShort key ∧ p.1 = encodeZsetKey name' key) →
      zfixMembers name es db size =
        (((es.takeWhile fun p => zsetStart name <+: p.1).map zsetMember).foldl (addScore name) db,
          size + (es.takeWhile fun p => zsetStart name <+: p.1).length) := by
  induction es with
  | nil =>
      intro db size _
      simp [zfixMembers]
  | cons p es ih =>
      intro db size h
      obtain ⟨name', key, hname', hkey, hp⟩ := h p List.mem_cons_self
      obtain ⟨k, v⟩ := p
      obtain rfl : k = encodeZsetKey name' key := hp
      have hstarts := zsetStart_prefix_iff hname hname' key
      rw [zfixMembers, if_neg (by simp [encodeZsetKey]), decodeZsetKey_encode hname' hkey]
      by_cases hsame : name = name'
      · subst hsame
        have htake : (((encodeZsetKey name key, v) :: es).takeWhile fun p => zsetStart name <+: p.1) =
            (encodeZsetKey name key, v) :: es.takeWhile fun p => zsetStart name <+: p.1 :=
          List.takeWhile_cons_of_pos (decide_eq_true (hstarts.mpr rfl))
        simp only [ne_eq, not_true_eq_false, if_false]
        rw [ih _ _ fun q hq => h q (List.mem_cons_of_mem _ hq), htake, List.map_cons, List.foldl_cons,
          zsetMember_encode hname hkey, List.length_cons]
        refine Prod.ext rfl ?_
        push_cast
        omega
      · have htake : (((encodeZsetKey name' key, v) :: es).takeWhile fun p => zsetStart name <+: p.1) = [] :=
          List.takeWhile_cons_of_neg (by simpa [hstarts] using hsame)
        simp only [ne_eq, hsame, not_false_eq_true, if_true]
        rw [htake]
        simp

/-- The second pass adds `ZSCORE` records of the name. -/
theorem get_foldl_addScore {name k : Bytes} (hk : ∀ key score, k ≠ encodeZscoreKey name key score)
    (L : List (Bytes × Bytes)) : ∀ {db : Db}, (L.foldl (addScore name) db).get k = db.get k := by
  induction L with
  | nil => intro db; rfl
  | cons p L ih =>
      intro db
      rw [List.foldl_cons, ih, addScore]
      split
      · rfl
      · exact OrderedMap.get_put_of_ne _ _ (hk p.1 p.2)

/-- Where the scores are there already, the second pass does nothing. -/
theorem foldl_addScore_eq_self {name : Bytes} (L : List (Bytes × Bytes)) {db : Db} :
    (∀ p ∈ L, (db.get (encodeZscoreKey name p.1 p.2)).isSome) → L.foldl (addScore name) db = db := by
  induction L with
  | nil => exact fun _ => rfl
  | cons p L ih =>
      intro h
      rw [List.foldl_cons, addScore, if_pos (h p List.mem_cons_self)]
      exact ih fun q hq => h q (List.mem_cons_of_mem _ hq)

/-- **After the second pass** the score of every `ZSET` record that was met is there. -/
theorem hasScore_foldl_addScore {name : Bytes} (hname : IsShort name) (L : List (Bytes × Bytes)) :
    ∀ db : Db, (∀ p ∈ L, IsShort p.1) → ∀ key s,
      (HasScore (L.foldl (addScore name) db) name key s ↔
        HasScore db name key s ∨ ∃ text, (key, text) ∈ L ∧ s = strtoll text) := by
  induction L with
  | nil =>
      intro db _ key s
      simp
  | cons p L ih =>
      intro db hL key s
      have hp : IsShort p.1 := hL p List.mem_cons_self
      -- one member more: its entry is the only one that the put can add
      have hstep : HasScore (addScore name db p) name key s ↔
          HasScore db name key s ∨ (key = p.1 ∧ s = strtoll p.2) := by
        -- a score is stored as its text, and an int64 is read back from it
        have hkeys : ∀ t, IsInt64 t → (encodeZscoreKey name key (str t) = encodeZscoreKey name p.1 p.2 ↔
            key = p.1 ∧ t = strtoll p.2) := by
          intro t ht
          constructor
          · intro heq
            obtain ⟨-, hkey, hscore⟩ := encodeZscoreKey_inj hname hp heq.symm
            rw [strtoll_str ht] at hscore
            exact ⟨hkey.symm, hscore.symm⟩
          · rintro ⟨rfl, rfl⟩
            rw [encodeZscoreKey, encodeZscoreKey, strtoll_str ht]
        simp only [HasScore, addScore]
        split
        · rename_i hthere
          refine ⟨Or.inl, ?_⟩
          rintro (h | ⟨rfl, rfl⟩)
          · exact h
          · have ht := isInt64_strtoll p.2
            exact ⟨ht, by rwa [(hkeys _ ht).mpr ⟨rfl, rfl⟩]⟩
        · rw [OrderedMap.get_put]
          constructor
          · rintro ⟨hs, hsome⟩
            split at hsome
            · rename_i heq
              exact Or.inr ((hkeys s hs).mp heq)
            · exact Or.inl ⟨hs, hsome⟩
          · rintro (⟨hs, hsome⟩ | ⟨rfl, rfl⟩)
            · refine ⟨hs, ?_⟩
              split
              · rfl
              · exact hsome
            · have ht := isInt64_strtoll p.2
              exact ⟨ht, by rw [if_pos ((hkeys _ ht).mpr ⟨rfl, rfl⟩)]; rfl⟩
      rw [List.foldl_cons, ih _ fun q hq => hL q (List.mem_cons_of_mem _ hq), hstep, or_assoc]
      apply or_congr_right
      constructor
      · rintro (⟨rfl, rfl⟩ | ⟨text, hmem, rfl⟩)
        · exact ⟨p.2, List.mem_cons_self, rfl⟩
        · exact ⟨text, List.mem_cons_of_mem _ hmem, rfl⟩
      · rintro ⟨text, hmem, rfl⟩
        rcases List.mem_cons.mp hmem with heq | hmem
        · exact Or.inl ⟨congrArg Prod.fst heq, congrArg (fun q => strtoll q.2) heq⟩
        · exact Or.inr ⟨text, hmem, rfl⟩

/-- The keys and texts that the second pass meets. -/
def membersMet (db : Db) (name : Bytes) : List (Bytes × Bytes) :=
  ((zfixMemberRange db name).takeWhile fun p => zsetStart name <+: p.1).map zsetMember

/-- The end of the second pass: behind the `ZSET` records of the name, unless the length byte of the longer
name is 0. -/
theorem le_memberEnd_iff {name : Bytes} (hname : IsShort name) (c : Bytes) :
    zsetStart name ++ c ≤ encodeZsetKey (name ++ [255]) [] ↔ name.length < 255 := by
  have hlen : (lenByte name).val = name.length := lenByte_val hname
  have hlen' : (lenByte (name ++ [255])).val = (name.length + 1) % 256 := by
    simp [lenByte]
  simp only [zsetStart, encodeZsetKey, List.cons_append]
  rw [← not_lt, List.cons_lt_cons_iff, List.cons_lt_cons_iff]
  simp only [lt_self_iff_false, true_and, false_or, Fin.lt_def, Fin.ext_iff, hlen, hlen']
  simp only [IsShort] at hname
  constructor
  · intro hnot
    by_contra hge
    refine hnot (Or.inl ?_)
    omega
  · intro hlt
    rintro (h | ⟨h, -⟩)
    · omega
    · omega

section MembersMet

variable {db : Db} {name : Bytes} (hname : IsShort name) (hcount : db.entries.length ≤ noLimit)

include hname hcount

theorem zfixMemberRange_eq : (zfixMemberRange db name).takeWhile (fun p => zsetStart name <+: p.1) =
    (db.entries.filter fun p => zsetStart name <+: p.1).filter fun p =>
      zsetStart name ++ [0] < p.1 ∧ name.length < 255 := by
  have hlast : encodeZsetKey (name ++ [255]) [] ≠ [] := List.cons_ne_nil _ _
  have hfirst : encodeZsetKey name [] = zsetStart name ++ [0] := rfl
  rw [zfixMemberRange, hfirst, iterator_range, List.take_of_length_le, List.filter_filter]
  · apply List.filter_congr
    intro p _
    rw [Bool.eq_iff_iff]
    simp only [hlast, false_or, Bool.and_eq_true, decide_eq_true_eq]
    constructor
    · rintro ⟨hlow, hhigh, c, hc⟩
      rw [← hc, le_memberEnd_iff hname] at hhigh
      exact ⟨⟨hlow, hhigh⟩, c, hc⟩
    · rintro ⟨⟨hlow, hlength⟩, c, hc⟩
      refine ⟨hlow, ?_, c, hc⟩
      rw [← hc, le_memberEnd_iff hname]
      exact hlength
  · exact (List.length_filter_le _ _).trans hcount

variable (hz : db.ZsetKeys)

include hz

theorem mem_membersMet (key text : Bytes) :
    (key, text) ∈ membersMet db name ↔
      name.length < 255 ∧ key ≠ [] ∧ zget db name key = some text := by
  rw [membersMet, zfixMemberRange_eq hname hcount, List.mem_map]
  constructor
  · rintro ⟨⟨k, v⟩, hp, hmember⟩
    simp only [List.mem_filter, decide_eq_true_eq] at hp
    obtain ⟨⟨hmem, hstart⟩, hlow, hlength⟩ := hp
    have hget := OrderedMap.mem_entries_iff.mp hmem
    obtain ⟨name', l, hname', hl, rfl⟩ := hz k v hget (by
      obtain ⟨c, rfl⟩ := hstart
      rfl)
    obtain rfl := (zsetStart_prefix_iff hname hname' l).mp hstart
    rw [zsetMember_encode hname hl] at hmember
    obtain ⟨rfl, rfl⟩ := Prod.mk.inj hmember
    refine ⟨hlength, (zsetStart_zero_lt_iff name hl).mp hlow, ?_⟩
    rw [zget, hget]
    rfl
  · rintro ⟨hlength, hne, hget⟩
    obtain ⟨v, hv, rfl⟩ := Option.map_eq_some_iff.mp hget
    obtain ⟨name', l, hname', hl, heq⟩ := hz _ v hv rfl
    obtain ⟨rfl, rfl⟩ := encodeZsetKey_inj hname' hl heq.symm
    refine ⟨(encodeZsetKey name' l, v), ?_, zsetMember_encode hname' hl v⟩
    simp only [List.mem_filter, decide_eq_true_eq]
    exact ⟨⟨OrderedMap.mem_entries_iff.mpr hv, List.prefix_append _ _⟩,
      (zsetStart_zero_lt_iff name' hl).mpr hne, hlength⟩

/-- **The second pass counts all `ZSET` records** unless there is one of the empty key, or the name has
255 bytes. -/
theorem length_membersMet_eq_iff : (membersMet db name).length = (db.under (zsetStart name)).length ↔
    ∀ key, zget db name key ≠ none → name.length < 255 ∧ key ≠ [] := by
  rw [membersMet, zfixMemberRange_eq hname hcount, OrderedMap.under, List.length_map, List.length_map,
    List.length_filter_eq_length_iff]
  simp only [List.mem_filter, decide_eq_true_eq]
  constructor
  · intro hall key hsome
    obtain ⟨text, htext⟩ := Option.ne_none_iff_exists'.mp hsome
    obtain ⟨v, hv, -⟩ := Option.map_eq_some_iff.mp htext
    obtain ⟨name', l, hname', hl, heq⟩ := hz _ v hv rfl
    obtain ⟨rfl, rfl⟩ := encodeZsetKey_inj hname' hl heq.symm
    obtain ⟨hlow, hlength⟩ := hall (encodeZsetKey name' l, v)
      ⟨OrderedMap.mem_entries_iff.mpr hv, List.prefix_append _ _⟩
    exact ⟨hlength, (zsetStart_zero_lt_iff name' hl).mp hlow⟩
  · rintro hall ⟨k, v⟩ ⟨hmem, hstart⟩
    have hget := OrderedMap.mem_entries_iff.mp hmem
    obtain ⟨name', l, hname', hl, rfl⟩ := hz k v hget (by
      obtain ⟨c, rfl⟩ := hstart
      rfl)
    obtain rfl := (zsetStart_prefix_iff hname hname' l).mp hstart
    obtain ⟨hlength, hne⟩ := hall l (by
      rw [zget, hget]
      simp)
    exact ⟨(zsetStart_zero_lt_iff name hl).mpr hne, hlength⟩

theorem short_of_mem_membersMet {p : Bytes × Bytes} (hp : p ∈ membersMet db name) : IsShort p.1 := by
  obtain ⟨key, text⟩ := p
  obtain ⟨-, -, hget⟩ := (mem_membersMet hname hcount hz key text).mp hp
  obtain ⟨v, hv, -⟩ := Option.map_eq_some_iff.mp hget
  obtain ⟨name', l, hname', hl, heq⟩ := hz _ v hv rfl
  obtain ⟨-, rfl⟩ := encodeZsetKey_inj hname' hl heq.symm
  exact hl

end MembersMet

/-! ## The whole repair -/

theorem get_zfixSize {name k : Bytes} (hk : k ≠ encodeZsizeKey name) (size : ℤ) (db : Db) :
    (zfixSize name size db).get k = db.get k := by
  rw [zfixSize]
  split
  · rfl
  · split
    · exact OrderedMap.get_delete_of_ne _ hk
    · exact OrderedMap.get_put_of_ne _ _ hk

theorem zsize_zfixSize (name : Bytes) {size : ℤ} (hsize : 0 ≤ size) (db : Db) :
    zsize (zfixSize name size db) name = size := by
  rw [zfixSize]
  split
  · assumption
  · split
    · rename_i hzero
      simp [zsize, hzero]
    · simp only [zsize, OrderedMap.get_put_self, Value.int64]
      rw [if_neg (by omega)]

theorem zfixSize_eq_self {name : Bytes} {size : ℤ} {db : Db} (h : zsize db name = size) :
    zfixSize name size db = db := by
  rw [zfixSize, if_pos h]

/-- A size that replaces another one. -/
theorem get_zfixSize_self {name : Bytes} {m n : ℤ} {db : Db} (h : zsize db name = m) (hne : m ≠ n)
    (hn : 0 < n) : (zfixSize name n db).get (encodeZsizeKey name) = some (.int n) := by
  rw [zfixSize, h, if_neg hne, if_neg (by omega), OrderedMap.get_put_self]

/-- Two values that read as one number have one image. -/
theorem image_of_int64 {v : Value} {n : ℤ} (h : v.int64 = some n) : v.image = (Value.int n).image := by
  cases v with
  | bytes b =>
      simp only [Value.int64] at h
      split at h
      · rename_i hlength
        have hreverse : b.reverse.length = 8 := by rw [List.length_reverse, hlength]
        have hlt : ofBigEndian b.reverse < 2 ^ 64 := by
          have := ofBigEndian_lt b.reverse
          rwa [hreverse] at this
        have hmod : n % 2 ^ 64 = ofBigEndian b.reverse := by
          rw [← Option.some.inj h]
          have hbmod := Int.bmod_emod (x := (ofBigEndian b.reverse : ℤ)) (m := 2 ^ 64)
          exact hbmod.trans (Int.emod_eq_of_lt (by omega) (by exact_mod_cast hlt))
        rw [Value.image, Value.image, hmod, Int.toNat_natCast, bigEndian_ofBigEndian hreverse, List.reverse_reverse]
      · cases h
  | int m => rw [Option.some.inj h]
  | log l => cases h

/-- The record of a size, and the one that `zfix` would write. -/
theorem image_of_zsize {db : Db} {name : Bytes} {n : ℤ} (h : zsize db name = n) (hn : 0 < n) :
    (db.get (encodeZsizeKey name)).map Value.image = (some (Value.int n)).map Value.image := by
  rw [zsize] at h
  split at h
  · omega
  · rename_i v hv
    rw [hv]
    split at h
    · omega
    · rename_i m hm
      split at h
      · omega
      · rw [Option.map_some, Option.map_some, image_of_int64 hm, h]

/-- The database behind the first pass. -/
def afterScores (db : Db) (name : Bytes) : Db :=
  zfixSize name (scoresMet db name).length ((scoresMet db name).foldl (fixMember name) db)

theorem length_afterScores {db : Db} (hcount : db.entries.length < 2 ^ 63) (name : Bytes) :
    (afterScores db name).entries.length ≤ noLimit := by
  have hfold : ∀ (L : List (Bytes × ℤ)) (db : Db),
      (L.foldl (fixMember name) db).entries.length ≤ db.entries.length + L.length := by
    intro L
    induction L with
    | nil => intro db; exact le_rfl
    | cons p L ih =>
        intro db
        have hstep : (fixMember name db p).entries.length ≤ db.entries.length + 1 := by
          rw [fixMember]
          split
          · exact Nat.le_succ _
          · exact OrderedMap.length_put_le _ _ _
        have := ih (fixMember name db p)
        rw [List.foldl_cons, List.length_cons]
        omega
  have hsize : ∀ (size : ℤ) (db : Db), (zfixSize name size db).entries.length ≤ db.entries.length + 1 := by
    intro size db
    rw [zfixSize]
    split
    · exact Nat.le_succ _
    · split
      · exact (OrderedMap.length_delete_le _ _).trans (Nat.le_succ _)
      · exact OrderedMap.length_put_le _ _ _
  have hmet : (scoresMet db name).length ≤ db.entries.length := by
    rw [scoresMet, List.length_map, zfixScoreRange_eq hcount]
    exact List.length_filter_le _ _
  have hfold := hfold (scoresMet db name) db
  have hsize := hsize (scoresMet db name).length ((scoresMet db name).foldl (fixMember name) db)
  rw [afterScores]
  simp only [noLimit]
  omega

theorem Db.ZsetKeys.of_zset {db db' : Db} (h : db.ZsetKeys)
    (hget : ∀ k, k.head? = some DataType.ZSET → db'.get k = db.get k) : db'.ZsetKeys := by
  intro k v hk hhead
  rw [hget k hhead] at hk
  exact h k v hk hhead

/-- The `ZSET` record of a key behind the first pass. -/
theorem zget_afterScores {db : Db} {name : Bytes} (hname : IsShort name) (hscores : db.ZscoreKeys)
    (hcount : db.entries.length < 2 ^ 63) (key : Bytes) :
    (∃ s, (key, s) ∈ scoresMet db name ∧ zget (afterScores db name) name key = some (str s)) ∨
      ((∀ s, (key, s) ∉ scoresMet db name) ∧ zget (afterScores db name) name key = zget db name key) := by
  have hzget : zget (afterScores db name) name key =
      zget ((scoresMet db name).foldl (fixMember name) db) name key := by
    rw [zget, zget, afterScores, get_zfixSize (zsetKey_ne_zsizeKey name key name)]
  rw [hzget]
  exact zget_foldl_fixMember hname (scoresMet db name)
    (fun p hp => short_of_mem_scoresMet hname hscores hcount hp) key

section Whole

variable {db : Db} {name : Bytes} (hname : IsShort name) (hmembers : db.ZsetKeys) (hscores : db.ZscoreKeys)
  (hcount : db.entries.length < 2 ^ 63)

include hname hmembers hscores hcount

theorem zsetKeys_afterScores : Db.ZsetKeys (afterScores db name) := by
  have hfold := hmembers.foldl_fixMember hname (scoresMet db name)
    fun p hp => short_of_mem_scoresMet hname hscores hcount hp
  refine hfold.of_zset ?_
  intro k hhead
  apply get_zfixSize
  rintro rfl
  exact absurd hhead (by simp [encodeZsizeKey]; decide)

/-- **The two passes**: what is returned, and what is left behind. -/
theorem zfix_eq : zfix db name =
    (((membersMet (afterScores db name) name).length : ℤ),
      zfixSize name (membersMet (afterScores db name) name).length
        ((membersMet (afterScores db name) name).foldl (addScore name) (afterScores db name))) := by
  have hrange : ∀ p ∈ zfixMemberRange (afterScores db name) name,
      ∃ name' key, IsShort name' ∧ IsShort key ∧ p.1 = encodeZsetKey name' key := by
    intro p hp
    obtain ⟨hlow, hhigh, hget⟩ := mem_iterator hp
    obtain ⟨c, hc, -, -⟩ := OrderedMap.between_append [DataType.ZSET] hlow (hhigh (List.cons_ne_nil _ _))
    exact zsetKeys_afterScores hname hmembers hscores hcount p.1 p.2 hget (by rw [hc]; rfl)
  have hfirst := zfixScores_eq hname (zfixScoreRange db name) db 0 (by
    intro p hp
    obtain ⟨key, s, -, hs, hkey⟩ := of_mem_zfixScoreRange hname hscores hcount hp
    exact ⟨key, s, hs, hkey⟩)
  have hsecond := zfixMembers_eq hname _ (afterScores db name) 0 hrange
  have hlength : ((zfixScoreRange db name).length : ℤ) = (scoresMet db name).length := by
    rw [scoresMet, List.length_map]
  have hne : ∀ n : ℕ, ¬ (n : ℤ) = -1 := by
    intro n
    omega
  simp only [zfix, hfirst, zero_add, hlength, hne, if_false]
  rw [← scoresMet, ← afterScores, hsecond]
  simp only [zero_add, hne, if_false]
  rw [membersMet, List.length_map]

/-- What the repair leaves of the keys that are not `ZSCORE` keys of the name or its size record. -/
theorem get_zfix {k : Bytes} (hsize : k ≠ encodeZsizeKey name)
    (hscore : ∀ key score, k ≠ encodeZscoreKey name key score) :
    (zfix db name).2.get k = (afterScores db name).get k := by
  rw [zfix_eq hname hmembers hscores hcount, get_zfixSize hsize, get_foldl_addScore hscore]

theorem zget_zfix (key : Bytes) : zget (zfix db name).2 name key = zget (afterScores db name) name key := by
  rw [zget, zget, get_zfix hname hmembers hscores hcount (zsetKey_ne_zsizeKey name key name)
    fun key' score' => zsetKey_ne_zscoreKey name key name key' score']

theorem hasScore_zfix (key : Bytes) (s : ℤ) :
    HasScore (zfix db name).2 name key s ↔ HasScore db name key s ∨
      (name.length < 255 ∧ key ≠ [] ∧ ∃ text, zget (afterScores db name) name key = some text ∧
        s = strtoll text) := by
  have hmet := mem_membersMet hname (length_afterScores hcount name)
    (zsetKeys_afterScores hname hmembers hscores hcount) key
  have hsecond := hasScore_foldl_addScore hname (membersMet (afterScores db name) name) (afterScores db name)
    (fun p hp => short_of_mem_membersMet hname (length_afterScores hcount name)
      (zsetKeys_afterScores hname hmembers hscores hcount) hp) key s
  have hfirst : HasScore (afterScores db name) name key s ↔ HasScore db name key s := by
    rw [HasScore, HasScore, afterScores, get_zfixSize (zscoreKey_ne_zsizeKey name key (str s) name),
      get_foldl_fixMember fun key' => (zsetKey_ne_zscoreKey name key' name key (str s)).symm]
  have hlast : HasScore (zfix db name).2 name key s ↔
      HasScore ((membersMet (afterScores db name) name).foldl (addScore name) (afterScores db name)) name key s := by
    rw [HasScore, HasScore, zfix_eq hname hmembers hscores hcount,
      get_zfixSize (zscoreKey_ne_zsizeKey name key (str s) name)]
  rw [hlast, hsecond, hfirst]
  simp only [hmet]
  constructor
  · rintro (h | ⟨text, ⟨hlength, hne, hget⟩, rfl⟩)
    · exact Or.inl h
    · exact Or.inr ⟨hlength, hne, text, hget, rfl⟩
  · rintro (h | ⟨hlength, hne, text, hget, rfl⟩)
    · exact Or.inl h
    · exact Or.inr ⟨text, ⟨hlength, hne, hget⟩, rfl⟩

theorem zsize_zfix : zsize (zfix db name).2 name = (zfix db name).1 := by
  rw [zfix_eq hname hmembers hscores hcount]
  exact zsize_zfixSize name (by omega) _

theorem under_zfix : (zfix db name).2.under (zsetStart name) = (afterScores db name).under (zsetStart name) := by
  rw [OrderedMap.under, OrderedMap.under]
  congr 1
  apply OrderedMap.filter_entries_congr (P := fun k => zsetStart name <+: k)
  rintro _ ⟨c, rfl⟩
  apply get_zfix hname hmembers hscores hcount
  · intro heq
    exact absurd (List.cons.inj heq).1 (by decide)
  · intro key score heq
    exact absurd (List.cons.inj heq).1 (by decide)

/-- The size is right exactly if there are no records of the empty key, and none at all under a name of 255
bytes. -/
theorem number_zfix_iff : (zfix db name).1 = ((zfix db name).2.under (zsetStart name)).length ↔
    ∀ key, zget (afterScores db name) name key ≠ none → name.length < 255 ∧ key ≠ [] := by
  rw [under_zfix hname hmembers hscores hcount, ← length_membersMet_eq_iff hname
    (length_afterScores hcount name) (zsetKeys_afterScores hname hmembers hscores hcount),
    zfix_eq hname hmembers hscores hcount, Nat.cast_inj]

/-- The records of anything else. -/
theorem get_zfix_other {k : Bytes} (hk : ¬ IsZsetRecord name k) : (zfix db name).2.get k = db.get k := by
  rw [IsZsetRecord, not_or, not_or, not_exists, not_exists] at hk
  obtain ⟨hsize, hmember, hscore⟩ := hk
  rw [get_zfix hname hmembers hscores hcount hsize
    fun key score heq => hscore key ⟨score, heq⟩, afterScores, get_zfixSize hsize,
    get_foldl_fixMember hmember]

/-- **What is left behind agrees** exactly if it could be repaired. -/
theorem zsetConsistent_zfix_iff :
    (zfix db name).2.ZsetConsistent name (zfix db name).1 ↔ db.Repairable name := by
  have hmet := mem_scoresMet hname hscores hcount
  have hafter := zget_afterScores hname hscores hcount
  have hscore := hasScore_zfix hname hmembers hscores hcount
  have hzget := zget_zfix hname hmembers hscores hcount
  have hnumber := number_zfix_iff hname hmembers hscores hcount
  constructor
  · intro h
    have hall := hnumber.mp h.number
    -- a score that was there is that of the `ZSET` record in the end
    have hend : ∀ {key s}, HasScore db name key s → zget (afterScores db name) name key = some (str s) := by
      intro key s hs
      rw [← hzget]
      exact ((h.corresponds key s).mp ((hscore key s).mpr (Or.inl hs))).2
    have hnone : ∀ {key}, zget (afterScores db name) name key = none →
        zget db name key = none ∧ ∀ s, ¬ HasScore db name key s := by
      intro key hkey
      refine ⟨?_, ?_⟩
      · rcases hafter key with ⟨s, -, hget⟩ | ⟨-, hget⟩
        · rw [hkey] at hget
          cases hget
        · rw [← hget, hkey]
      · intro s hs
        rw [hend hs] at hkey
        cases hkey
    refine ⟨?_, ?_, ?_, ?_, ?_⟩
    · intro key s t hs ht
      exact str_injective (Option.some.inj ((hend hs).symm.trans (hend ht)))
    · intro key hkey hs
      rcases hafter key with ⟨t, ht, hget⟩ | ⟨-, hget⟩
      · -- the score that was met would be the greatest one
        rw [hend hs] at hget
        obtain rfl := str_injective (Option.some.inj hget)
        exact absurd ⟨rfl, hkey⟩ ((hmet key _).mp ht).2.2
      · rw [← hget, hend hs]
    · intro key score hget hno
      rcases hafter key with ⟨t, ht, -⟩ | ⟨-, hsame⟩
      · exact absurd ((hmet key t).mp ht).1 (hno t)
      · exact h.text key score (by rw [hzget, hsame, hget])
    · apply hnone
      by_contra hsome
      exact (hall [] hsome).2 rfl
    · intro hlength key
      apply hnone
      by_contra hsome
      have := (hall key hsome).1
      omega
  · intro h
    -- the `ZSET` record of a key in the end
    have hend : ∀ key text, zget (afterScores db name) name key = some text →
        ∃ s, IsInt64 s ∧ text = str s ∧ ∀ t, HasScore db name key t → t = s := by
      intro key text hget
      rcases hafter key with ⟨s, hs, hget'⟩ | ⟨hno, hget'⟩
      · have hscore := ((hmet key s).mp hs).1
        rw [hget] at hget'
        exact ⟨s, hscore.1, Option.some.inj hget', fun t ht => h.unique key t s ht hscore⟩
      · by_cases hex : ∃ t, HasScore db name key t
        · -- a score that was not met is the greatest one, with a key behind the end
          obtain ⟨t, ht⟩ := hex
          have hnot := mt (hmet key t).mpr (hno t)
          have hkey : key ≠ [] := by
            rintro rfl
            exact h.emptyKey.2 t ht
          have hbeyond : t = 2 ^ 63 - 1 ∧ keyLast < key := by
            by_contra hin
            exact hnot ⟨ht, fun heq => hkey heq.2, hin⟩
          obtain ⟨rfl, hlast⟩ := hbeyond
          have htext := h.beyondEnd key hlast ht
          rw [← hget', hget] at htext
          exact ⟨_, ht.1, Option.some.inj htext, fun u hu => h.unique key u _ hu ht⟩
        · rw [not_exists] at hex
          obtain ⟨s, hs, rfl⟩ := h.text key text (by rw [← hget', hget]) hex
          exact ⟨s, hs, rfl, fun t ht => absurd ht (hex t)⟩
    have hthere : ∀ key s, HasScore db name key s → zget (afterScores db name) name key = some (str s) := by
      intro key s hs
      rcases hafter key with ⟨t, ht, hget⟩ | ⟨hno, hget⟩
      · rw [hget, h.unique key s t hs ((hmet key t).mp ht).1]
      · have hkey : key ≠ [] := by
          rintro rfl
          exact h.emptyKey.2 s hs
        have hbeyond : s = 2 ^ 63 - 1 ∧ keyLast < key := by
          by_contra hin
          exact hno s ((hmet key s).mpr ⟨hs, fun heq => hkey heq.2, hin⟩)
        obtain ⟨rfl, hlast⟩ := hbeyond
        rw [hget]
        exact h.beyondEnd key hlast hs
    have hall : ∀ key, zget (afterScores db name) name key ≠ none → name.length < 255 ∧ key ≠ [] := by
      intro key hsome
      have hold : ¬ (zget db name key = none ∧ ∀ s, ¬ HasScore db name key s) := by
        rintro ⟨hnone, hno⟩
        rcases hafter key with ⟨t, ht, -⟩ | ⟨-, hget⟩
        · exact hno t ((hmet key t).mp ht).1
        · exact hsome (hget.trans hnone)
      refine ⟨?_, ?_⟩
      · simp only [IsShort] at hname
        by_contra hge
        exact hold (h.longName (by omega) key)
      · rintro rfl
        exact hold h.emptyKey
    refine ⟨?_, ?_, zsize_zfix hname hmembers hscores hcount, hnumber.mpr hall⟩
    · intro key s
      rw [hscore, hzget]
      constructor
      · rintro (hs | ⟨-, -, text, hget, rfl⟩)
        · exact ⟨hs.1, hthere key s hs⟩
        · obtain ⟨s, hs, rfl, -⟩ := hend key text hget
          rw [strtoll_str hs]
          exact ⟨hs, hget⟩
      · rintro ⟨hs, hget⟩
        obtain ⟨hlength, hne⟩ := hall key (by
          rw [hget]
          simp)
        exact Or.inr ⟨hlength, hne, str s, hget, (strtoll_str hs).symm⟩
    · intro key score hget
      rw [hzget] at hget
      obtain ⟨s, hs, htext, -⟩ := hend key score hget
      exact ⟨s, hs, htext⟩

/-- Where the records agree, only the size is written. -/
theorem zfix_eq_sizes {n : ℤ} (h : db.ZsetConsistent name n) (hr : db.Repairable name) :
    (zfix db name).2 = zfixSize name n (zfixSize name (scoresMet db name).length db) := by
  have hmet := mem_scoresMet hname hscores hcount
  have hfirst : (scoresMet db name).foldl (fixMember name) db = db := by
    apply foldl_fixMember_eq_self
    rintro ⟨key, s⟩ hp
    exact ((h.corresponds key s).mp ((hmet key s).mp hp).1).2
  have hafter : afterScores db name = zfixSize name (scoresMet db name).length db := by
    rw [afterScores, hfirst]
  have hsecond : (membersMet (afterScores db name) name).foldl (addScore name) (afterScores db name) =
      afterScores db name := by
    apply foldl_addScore_eq_self
    rintro ⟨key, text⟩ hp
    obtain ⟨-, -, hget⟩ := (mem_membersMet hname (length_afterScores hcount name)
      (zsetKeys_afterScores hname hmembers hscores hcount) key text).mp hp
    rw [hafter, zget, get_zfixSize (zsetKey_ne_zsizeKey name key name), ← zget] at hget
    obtain ⟨s, hs, rfl⟩ := h.text key text hget
    rw [hafter, get_zfixSize (zscoreKey_ne_zsizeKey name key (str s) name)]
    exact ((h.corresponds key s).mpr ⟨hs, hget⟩).2
  have hfinal := (zsetConsistent_zfix_iff hname hmembers hscores hcount).mpr hr
  -- the second pass counts what was there
  have hsame : (zfix db name).1 = n := by
    rw [hfinal.number, under_zfix hname hmembers hscores hcount, h.number, hafter, OrderedMap.under,
      OrderedMap.under, OrderedMap.filter_entries_congr (P := fun k => zsetStart name <+: k)]
    rintro _ ⟨c, rfl⟩
    apply get_zfixSize
    intro heq
    exact absurd (List.cons.inj heq).1 (by decide)
  have hlength : ((membersMet (afterScores db name) name).length : ℤ) = n := by
    rw [zfix_eq hname hmembers hscores hcount] at hsame
    exact hsame
  rw [zfix_eq hname hmembers hscores hcount, hsecond, hlength, hafter]

/-- **Records that agree** are left as they are. -/
theorem zfix_unchanged {n : ℤ} (h : db.ZsetConsistent name n) (hr : db.Repairable name) (k : Bytes) :
    ((zfix db name).2.get k).map Value.image = (db.get k).map Value.image := by
  have hmet := mem_scoresMet hname hscores hcount
  rw [zfix_eq_sizes hname hmembers hscores hcount h hr]
  by_cases hk : k = encodeZsizeKey name
  · subst hk
    by_cases hm : ((scoresMet db name).length : ℤ) = n
    · rw [hm, zfixSize_eq_self h.size, zfixSize_eq_self h.size]
    · have hpos : 0 < n := by
        have hnumber := h.number
        rcases List.eq_nil_or_concat (scoresMet db name) with hnil | ⟨L, p, hconcat⟩
        · rw [hnil, List.length_nil] at hm
          omega
        · -- a score that was met has its `ZSET` record
          have hp : (p.1, p.2) ∈ scoresMet db name := by simp [hconcat]
          have hget := ((h.corresponds p.1 p.2).mp ((hmet p.1 p.2).mp hp).1).2
          obtain ⟨v, hv, -⟩ := Option.map_eq_some_iff.mp hget
          have hmem := List.length_pos_of_mem (OrderedMap.mem_under.mpr
            (show db.get (zsetStart name ++ lenByte p.1 :: p.1) = some v from hv))
          omega
      rw [get_zfixSize_self (zsize_zfixSize name (by omega) db) hm hpos]
      exact (image_of_zsize h.size hpos).symm
  · rw [get_zfixSize hk, get_zfixSize hk]

/-- **When the repair is right.** -/
theorem zfix_repairs_iff : ZfixRight db name ↔ db.Repairable name := by
  have hiff := zsetConsistent_zfix_iff hname hmembers hscores hcount
  constructor
  · rintro ⟨hright, -⟩
    have hnonneg : 0 ≤ (zfix db name).1 := by
      rw [zfix_eq hname hmembers hscores hcount]
      exact Int.natCast_nonneg _
    exact hiff.mp (hright hnonneg).1
  · intro h
    refine ⟨fun _ => ⟨hiff.mpr h, fun k hk => get_zfix_other hname hmembers hscores hcount hk⟩, ?_⟩
    intro n hn k
    exact zfix_unchanged hname hmembers hscores hcount hn h k

end Whole

/-- A sorted set whose score record and size are lost. -/
def damagedZset : Db := OrderedMap.empty.put (encodeZsetKey (ascii "z") (ascii "a")) (.bytes (ascii "5"))

theorem zfix_repairs_damagedZset :
    IsShort (ascii "z") ∧ damagedZset.ZsetKeys ∧ damagedZset.ZscoreKeys ∧
      damagedZset.entries.length < 2 ^ 63 ∧
      (ZfixRight damagedZset (ascii "z") ↔ damagedZset.Repairable (ascii "z")) := by
  have hname : IsShort (ascii "z") := show (ascii "z").length ≤ 255 by decide
  have hkey : IsShort (ascii "a") := show (ascii "a").length ≤ 255 by decide
  have hmembers : damagedZset.ZsetKeys := by
    apply Db.ZsetKeys.put_zset _ hname hkey
    intro k v hget
    cases hget
  have hscores : damagedZset.ZscoreKeys := Db.ZscoreKeys.empty.put _ fun hhead => absurd hhead (by decide)
  have hcount : damagedZset.entries.length < 2 ^ 63 := by decide
  exact ⟨hname, hmembers, hscores, hcount, zfix_repairs_iff hname hmembers hscores hcount⟩

/-- A key with two `ZSCORE` records. -/
def twoScores : Db :=
  (OrderedMap.empty.put (encodeZscoreKey (ascii "z") (ascii "a") (ascii "1")) (.bytes [])).put
    (encodeZscoreKey (ascii "z") (ascii "a") (ascii "2")) (.bytes [])

/-- The store after `zset` of one member to a name of 255 bytes. -/
def longZset : Db :=
  Db.apply OrderedMap.empty (zset OrderedMap.empty (List.replicate 255 (chr 'x')) (ascii "a") (ascii "1") .sync).2

/-- **A stale score record stays**: `zfix` returns 1 and leaves both of them.  **And a long name loses its
size**: it was 1, `zfix` returns 0 and deletes the record, while the member is still there. -/
theorem zfix_keeps_twoScores :
    (zfix twoScores (ascii "z")).1 = 1 ∧
      HasScore (zfix twoScores (ascii "z")).2 (ascii "z") (ascii "a") 1 ∧
      HasScore (zfix twoScores (ascii "z")).2 (ascii "z") (ascii "a") 2 ∧
      ¬ ZfixRight twoScores (ascii "z") ∧
      zsize longZset (List.replicate 255 (chr 'x')) = 1 ∧
      (zfix longZset (List.replicate 255 (chr 'x'))).1 = 0 ∧
      zget (zfix longZset (List.replicate 255 (chr 'x'))).2 (List.replicate 255 (chr 'x')) (ascii "a") =
        some (ascii "1") := by
  have hret : (zfix twoScores (ascii "z")).1 = 1 := by decide +kernel
  have hfirst : HasScore (zfix twoScores (ascii "z")).2 (ascii "z") (ascii "a") 1 :=
    ⟨by decide, by decide +kernel⟩
  have hsecond : HasScore (zfix twoScores (ascii "z")).2 (ascii "z") (ascii "a") 2 :=
    ⟨by decide, by decide +kernel⟩
  refine ⟨hret, hfirst, hsecond, ?_, by decide +kernel, by decide +kernel, by decide +kernel⟩
  rintro ⟨hright, -⟩
  have hconsistent := (hright (by rw [hret]; decide)).1
  have hget := ((hconsistent.corresponds _ _).mp hfirst).2
  rw [((hconsistent.corresponds _ _).mp hsecond).2] at hget
  exact absurd hget (by decide)

end Ssdb

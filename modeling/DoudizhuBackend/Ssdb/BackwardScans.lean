/-
# Backward enumeration

`rscan`, `hrscan`, `zrscan`, `zrrange`, `hrlist`, `zrlist`, `qrlist` and `zrrank`.  A walk forward starts
at the bare start of the keys, a walk backward at a bound above them: the start with a byte `0xff`, or
the record of the empty key under the greatest score.  The two directions mirror each other exactly if
nothing that is stored lies outside these bounds (`backward_mirrors_forward`): keys that begin with
`0xff` lie above, and so do members with the greatest score, while an empty key is below the start of a
walk forward.
-/
import DoudizhuBackend.Ssdb.Repairs

namespace Ssdb

/-! ## Walks -/

/-- `rscan`. -/
def Kv.rscan (db : Db) (first last : Bytes) (limit : ℕ) : List (Bytes × Bytes) :=
  kIterator (revIterator db (encodeKvKey first ++ if first = [] then [255] else [])
    (if last = [] then [] else encodeKvKey last) limit)

/-- `zlist`: the names of sorted sets, from their sizes. -/
def zlist (db : Db) (first last : Bytes) (limit : ℕ) : List Bytes :=
  nameIterator DataType.ZSIZE (iterator db (encodeZsizeKey first)
    (if last = [] then [] else encodeZsizeKey last) limit)

/-- `zrlist`. -/
def zrlist (db : Db) (first last : Bytes) (limit : ℕ) : List Bytes :=
  nameIterator DataType.ZSIZE (revIterator db
    (encodeZsizeKey first ++ if first = [] then [255] else [])
    (if last = [] then [] else encodeZsizeKey last) limit)

/-- `qlist`: the names of queues, from their sizes. -/
def qlist (db : Db) (first last : Bytes) (limit : ℕ) : List Bytes :=
  nameIterator DataType.QSIZE (iterator db (encodeQsizeKey first)
    (if last = [] then [] else encodeQsizeKey last) limit)

/-- `qrlist`. -/
def qrlist (db : Db) (first last : Bytes) (limit : ℕ) : List Bytes :=
  nameIterator DataType.QSIZE (revIterator db
    (encodeQsizeKey first ++ if first = [] then [255] else [])
    (if last = [] then [] else encodeQsizeKey last) limit)

/-! ## When two walks mirror each other -/

/-- A key that lies between the starts of the two walks. -/
def InBounds (key : Bytes) : Prop := key ≠ [] ∧ key.head? ≠ some 255

/-- No member has the greatest score, unless a walk forward misses it too. -/
def NoTopMember (db : Db) (name : Bytes) : Prop :=
  ∀ key s, zget db name key = some (str s) → s = 2 ^ 63 - 1 → keyLast < key

theorem lt_keyLast_iff (key : Bytes) : key < [255] ↔ key.head? ≠ some 255 := by
  cases key with
  | nil => simp
  | cons b key =>
      rw [List.cons_lt_cons_iff, List.head?_cons, Ne, Option.some.injEq]
      simp only [List.not_lt_nil, and_false, or_false]
      have hb := b.isLt
      rw [Fin.lt_def, Fin.ext_iff]
      show b.val < 255 ↔ ¬ b.val = 255
      omega

/-- Two filters with the same images agree on the list, if the images tell its elements apart. -/
theorem map_filter_eq_iff {γ δ : Type} {l : List γ} {f : γ → δ} {A B : γ → Prop} [DecidablePred A]
    [DecidablePred B] (hf : ∀ x ∈ l, ∀ y ∈ l, f x = f y → x = y) :
    (l.filter fun x => B x).map f = (l.filter fun x => A x).map f ↔ ∀ x ∈ l, (B x ↔ A x) := by
  constructor
  · intro heq x hx
    have hmem : f x ∈ (l.filter fun x => B x).map f ↔ f x ∈ (l.filter fun x => A x).map f := by rw [heq]
    have hiff : ∀ (C : γ → Prop) [DecidablePred C], f x ∈ (l.filter fun x => C x).map f ↔ C x := by
      intro C _
      rw [List.mem_map]
      constructor
      · rintro ⟨y, hy, hfy⟩
        obtain ⟨hy, hC⟩ := List.mem_filter.mp hy
        rw [hf y hy x hx hfy] at hC
        exact of_decide_eq_true hC
      · intro hC
        exact ⟨x, List.mem_filter.mpr ⟨hx, decide_eq_true hC⟩, rfl⟩
    rwa [hiff B, hiff A] at hmem
  · intro hiff
    congr 1
    apply List.filter_congr
    intro x hx
    exact decide_eq_decide.mpr (hiff x hx)

/-- **Two walks mirror each other** if they have the same elements: the one forward over those with `A`,
the one backward over those with `B`, both without a limit. -/
theorem mirror_iff {γ δ : Type} {l : List γ} {f : γ → δ} {A B : γ → Prop} [DecidablePred A]
    [DecidablePred B] (hf : ∀ x ∈ l, ∀ y ∈ l, f x = f y → x = y) {limit : ℕ} (hlimit : l.length ≤ limit) :
    (((l.filter fun x => B x).reverse).take limit).map f =
        ((((l.filter fun x => A x).take limit).map f)).reverse ↔ ∀ x ∈ l, (B x ↔ A x) := by
  have hA := List.length_filter_le (fun x => decide (A x)) l
  have hB := List.length_filter_le (fun x => decide (B x)) l
  rw [List.take_of_length_le (by rw [List.length_reverse]; omega), List.take_of_length_le (by omega),
    List.map_reverse, List.reverse_inj]
  exact map_filter_eq_iff hf

/-! ## Names, keys and fields -/

section Stretch

variable {db : Db} {limit : ℕ}

theorem length_under_le (db : Db) (pre : Bytes) : (db.under pre).length ≤ db.entries.length := by
  rw [OrderedMap.under, List.length_map]
  exact List.length_filter_le _ _

/-- The entries of a stretch have different keys. -/
theorem under_unique {pre : Bytes} {p q : Bytes × Value} (hp : p ∈ db.under pre) (hq : q ∈ db.under pre)
    (hkey : p.1 = q.1) : p = q := by
  obtain ⟨c, v⟩ := p
  obtain ⟨d, w⟩ := q
  have hkey : c = d := hkey
  subst hkey
  have hv := OrderedMap.mem_under.mp hp
  rw [OrderedMap.mem_under.mp hq] at hv
  rw [Option.some.inj hv]

/-- Both walks see the keys in bounds. -/
theorem stretch_bounds_iff (db : Db) (pre : Bytes) :
    (∀ p ∈ db.under pre, (p.1 < [255] ↔ [] < p.1)) ↔
      ∀ key, (db.get (pre ++ key)).isSome → InBounds key := by
  simp only [lt_keyLast_iff, nil_lt_iff, InBounds]
  constructor
  · intro hall key hget
    obtain ⟨v, hv⟩ := Option.isSome_iff_exists.mp hget
    have hiff := hall (key, v) (OrderedMap.mem_under.mpr hv)
    -- an empty key does not begin with `0xff`
    rcases eq_or_ne key [] with rfl | hne
    · simp at hiff
    · exact ⟨hne, hiff.mpr hne⟩
  · rintro hall ⟨key, v⟩ hp
    have hget := OrderedMap.mem_under.mp hp
    have hbounds := hall key (by rw [hget]; rfl)
    exact iff_of_true hbounds.2 hbounds.1

/-- The lists of names. -/
theorem names_mirror_iff (type : Byte) (hlimit : db.entries.length ≤ limit) :
    nameIterator type (revIterator db [type, 255] [] limit) =
        (nameIterator type (iterator db [type] [] limit)).reverse ↔
      ∀ name, (db.get (type :: name)).isSome → InBounds name := by
  rw [nameIterator_iterator, nameIterator_revIterator]
  rw [mirror_iff (f := fun p : Bytes × Value => p.1) (A := fun p => [] < p.1)
    (B := fun p => p.1 < [255]) (fun p hp q hq => under_unique hp hq)
    ((length_under_le db _).trans hlimit)]
  exact stretch_bounds_iff db [type]

/-- What `KIterator` returns of a stretch. -/
theorem filterMap_decodeKvKey (es : List (Bytes × Value)) :
    (es.map (OrderedMap.attach [DataType.KV])).filterMap
        (fun p => (decodeNameKey p.1).map fun key => (key, p.2.image)) =
      es.map fun p => (p.1, p.2.image) := by
  rw [List.filterMap_map, ← List.filterMap_eq_map]
  rfl

theorem kIterator_eq (es : List (Bytes × Value)) :
    kIterator es = (es.takeWhile fun p => [DataType.KV] <+: p.1).filterMap fun p =>
      (decodeNameKey p.1).map fun key => (key, p.2.image) := by
  simp only [kIterator, head_eq_iff_isPrefix]

theorem kv_mirror_iff (hlimit : db.entries.length ≤ limit) :
    Kv.rscan db [] [] limit = (Kv.scan db [] [] limit).reverse ↔
      ∀ key, (Kv.get db key).isSome → InBounds key := by
  have hscan : Kv.scan db [] [] limit =
      (((db.under [DataType.KV]).filter fun p => [] < p.1).take limit).map fun p => (p.1, p.2.image) := by
    have hstretch := iterator_stretch db [DataType.KV] [] limit
    rw [List.append_nil] at hstretch
    rw [Kv.scan, if_pos rfl, kIterator_eq, encodeKvKey, hstretch, filterMap_decodeKvKey]
  have hrscan : Kv.rscan db [] [] limit =
      ((((db.under [DataType.KV]).filter fun p => p.1 < [255]).reverse).take limit).map fun p =>
        (p.1, p.2.image) := by
    rw [Kv.rscan, if_pos rfl, if_pos rfl, kIterator_eq, encodeKvKey, revIterator_stretch,
      filterMap_decodeKvKey]
  rw [hscan, hrscan, mirror_iff (f := fun p : Bytes × Value => (p.1, p.2.image))
    (A := fun p => [] < p.1) (B := fun p => p.1 < [255])
    (fun p hp q hq heq => under_unique hp hq (Prod.mk.inj heq).1)
    ((length_under_le db _).trans hlimit), stretch_bounds_iff]
  simp only [Kv.get, Option.isSome_map]
  rfl

theorem mem_revIterator {first last : Bytes} {p : Bytes × Value}
    (hp : p ∈ revIterator db first last limit) : db.get p.1 = some p.2 := by
  have hp := (List.takeWhile_sublist _).subset (List.take_subset _ _ hp)
  exact OrderedMap.mem_entries_iff.mp (List.mem_of_mem_filter (List.mem_reverse.mp hp))

theorem hash_mirror_iff (h : db.AllHashes) {name : Bytes} (hname : IsShort name)
    (hlimit : db.entries.length ≤ limit) :
    hrscan db name [] [] limit = (hscan db name [] [] limit).reverse ↔
      ∀ key, (hget db name key).isSome → InBounds key := by
  have hrscan_eq : hrscan db name [] [] limit =
      ((((db.under (hashStart name)).filter fun p => p.1 < [255]).reverse).take limit).map fun p =>
        (p.1, p.2.image) := by
    rw [hrscan, if_pos rfl, if_pos rfl, encodeHashKey_eq, List.append_nil, hIterator_eq hname,
      revIterator_stretch, List.map_map]
    · apply List.map_congr_left
      intro p _
      simp [OrderedMap.attach]
    · exact fun p hp => h.keys p.1 p.2 (mem_revIterator hp)
  rw [hrscan_eq, h.hscan_eq hname, mirror_iff (f := fun p : Bytes × Value => (p.1, p.2.image))
    (A := fun p => [] < p.1) (B := fun p => p.1 < [255])
    (fun p hp q hq heq => under_unique hp hq (Prod.mk.inj heq).1)
    ((length_under_le db _).trans hlimit), stretch_bounds_iff]
  simp only [← encodeHashKey_eq, hget, Option.isSome_map]

end Stretch

/-! ## Sizes -/

namespace Db.IsStore

variable {db : Db}

/-- A size record is that of a container with elements. -/
theorem hsize_isSome_iff (h : db.IsStore) (name : Bytes) :
    (db.get (DataType.HSIZE :: name)).isSome ↔ 0 < hsize db name := by
  obtain ⟨content, keys, hh⟩ := h.hashes.hashes name
  have hrecord := hh.size
  rw [encodeHsizeKey] at hrecord
  rw [hh.hsize_eq, hrecord, Int.natCast_pos, List.length_pos_iff]
  split_ifs with hnil
  · simp [hnil]
  · simp [hnil]

theorem zsize_isSome_iff (h : db.IsStore) (name : Bytes) :
    (db.get (DataType.ZSIZE :: name)).isSome ↔ 0 < zsize db name := by
  obtain ⟨content, keys, hz⟩ := h.zsets name
  have hrecord := hz.size
  rw [encodeZsizeKey] at hrecord
  rw [hz.zsize_eq, hrecord, Int.natCast_pos, List.length_pos_iff]
  split_ifs with hnil
  · simp [hnil]
  · simp [hnil]

theorem qsize_isSome_iff (h : db.IsStore) (name : Bytes) :
    (db.get (DataType.QSIZE :: name)).isSome ↔ 0 < qsize db name := by
  obtain ⟨front, items, hq⟩ := h.queues name
  have hrecord := hq.size
  rw [encodeQsizeKey] at hrecord
  rw [hq.qsize_eq, hrecord, Int.natCast_pos, List.length_pos_iff]
  split_ifs with hnil
  · simp [hnil]
  · simp [hnil]

end Db.IsStore

/-! ## Members -/

/-- The place of a member. -/
theorem rankIn_of_getElem? {L : List (ℤ × Bytes)} (hkeys : (L.map Prod.snd).Nodup) {i : ℕ} {s : ℤ}
    {key : Bytes} (h : L[i]? = some (s, key)) : rankIn (L.map itemText) key = i := by
  have hfind : (L.map itemText).findIdx? (·.1 = key) = some i := by
    rw [List.findIdx?_map]
    exact findIdx?_of_getElem? hkeys h
  rw [rankIn, hfind]

theorem rankIn_of_not_mem {L : List (ℤ × Bytes)} {key : Bytes} (h : ∀ s, (s, key) ∉ L) :
    rankIn (L.map itemText) key = -1 := by
  have hfind : (L.map itemText).findIdx? (·.1 = key) = none := by
    rw [List.findIdx?_map, List.findIdx?_eq_none_iff]
    rintro ⟨s, k⟩ hp
    rw [Function.comp_apply, itemText, decide_eq_false_iff_not]
    rintro rfl
    exact h s hp
  rw [rankIn, hfind]

theorem rankIn_lt (list : List (Bytes × Bytes)) (key : Bytes) : rankIn list key < list.length := by
  rw [rankIn]
  cases hfind : list.findIdx? (·.1 = key) with
  | none => simp only; omega
  | some i =>
      have hi := (List.findIdx?_eq_some_iff_getElem.mp hfind).1
      simp only
      omega

namespace Db.Members

variable {db : Db} {name : Bytes} {L : List (ℤ × Bytes)}

theorem length_le (h : db.Members name L) : L.length ≤ db.entries.length := by
  have hlength := length_under_le db (scoreStart name)
  rwa [h.stretch, List.length_map] at hlength

theorem noTopMember_iff (h : db.Members name L) :
    (∀ p ∈ L, (p.1 < 2 ^ 63 - 1 ↔ ¬ BeyondEnd (2 ^ 63 - 1) p)) ↔ NoTopMember db name := by
  constructor
  · intro hall key s hget hs
    have hiff := hall (s, key) ((h.mem key s).mpr hget)
    by_contra hkey
    have hlt := hiff.mpr fun hbeyond => hkey hbeyond.2
    simp only at hlt
    omega
  · rintro hall ⟨s, key⟩ hp
    have hint := h.isInt64 _ hp
    rw [IsInt64] at hint
    have htop := hall key s ((h.mem key s).mp hp)
    simp only [BeyondEnd] at hint ⊢
    constructor
    · rintro hlt ⟨heq, -⟩
      omega
    · intro hnot
      by_contra hge
      have heq : s = 2 ^ 63 - 1 := by omega
      exact hnot ⟨heq, htop heq⟩

/-- The two walks over all members. -/
theorem members_mirror_iff (h : db.Members name L) (hname : IsShort name) {limit : ℕ}
    (hlimit : db.entries.length ≤ limit) :
    zrevIterator db name [] [] [] limit = (ziterator db name [] [] [] limit).reverse ↔
      NoTopMember db name := by
  rw [h.zrevIterator_eq hname, h.ziterator_all hname, seen,
    mirror_iff (f := itemText) (A := fun p => ¬ BeyondEnd (2 ^ 63 - 1) p)
      (B := fun p => p.1 < 2 ^ 63 - 1) (fun p _ q _ heq => itemText_injective heq)
      (h.length_le.trans hlimit)]
  exact h.noTopMember_iff

theorem rangeLimit_zero (limit : ℕ) : rangeLimit 0 limit = limit := by
  rw [rangeLimit, Nat.zero_add]
  split_ifs with hlt
  · exact absurd hlt (not_lt.mpr (Nat.mod_le _ _))
  · rfl

/-- Without a member with the greatest score both walks see all members. -/
theorem seen_of_notop (_ : db.Members name L) (hnotop : ∀ key s, (s, key) ∈ L → s ≠ 2 ^ 63 - 1) :
    seen (2 ^ 63 - 1) L = L := by
  rw [seen, List.filter_eq_self]
  intro p hp
  rw [decide_eq_true_eq]
  exact fun hbeyond => hnotop p.2 p.1 hp hbeyond.1

theorem filter_of_notop (h : db.Members name L) (hnotop : ∀ key s, (s, key) ∈ L → s ≠ 2 ^ 63 - 1) :
    L.filter (fun p => p.1 < 2 ^ 63 - 1) = L := by
  rw [List.filter_eq_self]
  intro p hp
  have hint := h.isInt64 p hp
  have hne := hnotop p.2 p.1 hp
  rw [IsInt64] at hint
  rw [decide_eq_true_eq]
  omega

/-- The ranks of a member add up to the size. -/
theorem ranks_iff (h : db.Members name L) (hname : IsShort name) :
    (∀ key s, zget db name key = some (str s) →
        zrank db name key + zrrank db name key + 1 = zsize db name) ↔
      (∀ key s, zget db name key = some (str s) → s ≠ 2 ^ 63 - 1) ∧ zsize db name ≤ intMax := by
  simp only [← h.mem, h.size, zrank, zrrank, h.ziterator_all hname, h.zrevIterator_eq hname]
  constructor
  · intro hall
    have hnotop : ∀ key s, (s, key) ∈ L → s ≠ 2 ^ 63 - 1 := by
      rintro key s hp rfl
      have hsum := hall key _ hp
      -- the walk backward does not see the member, and a place is less than the size
      have hback : rankIn ((((L.filter fun p => p.1 < 2 ^ 63 - 1).reverse).take intMax).map itemText)
          key = -1 := by
        apply rankIn_of_not_mem
        intro s' hs'
        obtain ⟨hmem, hlt⟩ := List.mem_filter.mp (List.mem_reverse.mp (List.mem_of_mem_take hs'))
        have hsame := h.score_unique hmem hp rfl
        exact (of_decide_eq_true hlt).ne (Prod.mk.inj hsame).1
      have hlt := rankIn_lt (((seen (2 ^ 63 - 1) L).take intMax).map itemText) key
      have hle := h.seen_all_prefix.length_le
      rw [hback] at hsum
      rw [List.length_map, List.length_take] at hlt
      omega
    refine ⟨hnotop, ?_⟩
    by_contra hmany
    rw [h.seen_of_notop hnotop, h.filter_of_notop hnotop] at hall
    -- the last member is the first one of the walk backward, and its place is too great
    have hne : L.reverse ≠ [] := by
      intro hnil
      rw [List.reverse_eq_nil_iff.mp hnil] at hmany
      simp at hmany
    obtain ⟨⟨s, key⟩, rest, hcons⟩ := List.exists_cons_of_ne_nil hne
    have hlast : (L.reverse.take intMax)[0]? = some (s, key) := by
      rw [List.getElem?_take_of_lt (by decide), hcons]
      rfl
    have hmem : (s, key) ∈ L := by
      rw [← List.mem_reverse, hcons]
      exact List.mem_cons_self
    have hsum := hall key s hmem
    have hkeys : ((L.reverse.take intMax).map Prod.snd).Nodup := by
      rw [List.map_take, List.map_reverse]
      exact (List.nodup_reverse.mpr h.keys_nodup).sublist (List.take_sublist _ _)
    have hlt := rankIn_lt ((L.take intMax).map itemText) key
    rw [rankIn_of_getElem? hkeys hlast] at hsum
    rw [List.length_map, List.length_take] at hlt
    omega
  · rintro ⟨hnotop, hsize⟩ key s hp
    obtain ⟨i, hi, hget⟩ := List.mem_iff_getElem.mp hp
    have hforward : L[i]? = some (s, key) := List.getElem?_eq_some_iff.mpr ⟨hi, hget⟩
    have hbackward : L.reverse[L.length - 1 - i]? = some (s, key) := by
      rw [List.getElem?_reverse (by omega), ← hforward]
      congr 1
      omega
    have hkeys : (L.reverse.map Prod.snd).Nodup := by
      rw [List.map_reverse]
      exact List.nodup_reverse.mpr h.keys_nodup
    rw [h.seen_of_notop hnotop, h.filter_of_notop hnotop, List.take_of_length_le (by omega),
      List.take_of_length_le (by rw [List.length_reverse]; omega), rankIn_of_getElem? h.keys_nodup hforward,
      rankIn_of_getElem? hkeys hbackward]
    omega

end Db.Members

/-- **Backward enumeration mirrors forward enumeration** exactly if everything stored is in bounds:
after any operations, and any repairs that meet no exception, and without a limit, `rscan` mirrors `scan` and `hrscan` mirrors `hscan` if no key
is empty or begins with `0xff`, the lists of names mirror each other if no name is empty or begins with
`0xff`, and `zrscan` and `zrrange` mirror `zscan` and `zrange` if no member has the greatest score (and a
key that a walk forward sees).  The ranks of every member add up to the size if no member has the
greatest score and there are at most `INT_MAX` members. -/
theorem backward_mirrors_forward (ws : List WriteStep) (hws : FindsAll ws) :
    let db := ws.foldl Db.serve OrderedMap.empty
    ∀ limit, db.entries.length ≤ limit →
      (Kv.rscan db [] [] limit = (Kv.scan db [] [] limit).reverse ↔
        ∀ key, (Kv.get db key).isSome → InBounds key) ∧
      (∀ name, IsShort name →
        (hrscan db name [] [] limit = (hscan db name [] [] limit).reverse ↔
          ∀ key, (hget db name key).isSome → InBounds key)) ∧
      (hrlist db [] [] limit = (hlist db [] [] limit).reverse ↔
        ∀ name, 0 < hsize db name → InBounds name) ∧
      (zrlist db [] [] limit = (zlist db [] [] limit).reverse ↔
        ∀ name, 0 < zsize db name → InBounds name) ∧
      (qrlist db [] [] limit = (qlist db [] [] limit).reverse ↔
        ∀ name, 0 < qsize db name → InBounds name) ∧
      ∀ name, IsShort name →
        (zrscan db name [] [] [] limit = (zscan db name [] [] [] limit).reverse ↔
          NoTopMember db name) ∧
        (zrrange db name 0 limit = (zrange db name 0 limit).reverse ↔ NoTopMember db name) ∧
        ((∀ key s, zget db name key = some (str s) →
            zrank db name key + zrrank db name key + 1 = zsize db name) ↔
          (∀ key s, zget db name key = some (str s) → s ≠ 2 ^ 63 - 1) ∧ zsize db name ≤ intMax) := by
  intro db limit hlimit
  have h : db.IsStore := hws.isStore
  refine ⟨kv_mirror_iff hlimit, fun name hname => hash_mirror_iff h.hashes hname hlimit, ?_, ?_, ?_, ?_⟩
  · have hnames := names_mirror_iff DataType.HSIZE hlimit
    simp only [h.hsize_isSome_iff] at hnames
    exact hnames
  · have hnames := names_mirror_iff DataType.ZSIZE hlimit
    simp only [h.zsize_isSome_iff] at hnames
    exact hnames
  · have hnames := names_mirror_iff DataType.QSIZE hlimit
    simp only [h.qsize_isSome_iff] at hnames
    exact hnames
  · intro name hname
    obtain ⟨L, hL⟩ := h.exists_members hname
    have hscore : scanScore db name [] [] = [] := by simp [scanScore]
    have hmirror := hL.members_mirror_iff hname hlimit
    refine ⟨?_, ?_, hL.ranks_iff hname⟩
    · rw [zrscan, zscan, hscore]
      exact hmirror
    · rw [zrrange, zrange, Db.Members.rangeLimit_zero, List.drop_zero, List.drop_zero]
      exact hmirror

theorem backward_mirrors_repairedStore :
    FindsAll repairedStore ∧
      (repairedStore.foldl Db.serve OrderedMap.empty).entries.length ≤ 20 ∧
      (Kv.rscan (repairedStore.foldl Db.serve OrderedMap.empty) [] [] 20 =
          (Kv.scan (repairedStore.foldl Db.serve OrderedMap.empty) [] [] 20).reverse ↔
        ∀ key, (Kv.get (repairedStore.foldl Db.serve OrderedMap.empty) key).isSome → InBounds key) := by
  have hlimit : (repairedStore.foldl Db.serve OrderedMap.empty).entries.length ≤ 20 := by decide +kernel
  exact ⟨findsAll_repairedStore, hlimit,
    (backward_mirrors_forward repairedStore findsAll_repairedStore 20 hlimit).1⟩

/-- A pair whose key begins with `0xff`. -/
def highPair : List WriteStep := [.store (.write (.set [255] (ascii "x")) .sync)]

/-- `scan` returns the pair and `rscan` does not. -/
theorem rscan_misses_highPair :
    Kv.scan (highPair.foldl Db.serve OrderedMap.empty) [] [] 10 = [([255], ascii "x")] ∧
      Kv.rscan (highPair.foldl Db.serve OrderedMap.empty) [] [] 10 = [] := by
  constructor <;> decide +kernel

end Ssdb

/-
# The sorted set and its index

`ssdb-master/src/util/sorted_set.cpp` with both of its containers: `sorted_set` holds the items in their
order, and `existed` holds for every key an iterator into it.  An iterator is the address of a node, and
following the one of a node that is gone is an error (`none`).

The two mirror a `SortedSet` whatever is called (`Mirrors`), so that no iterator dangles.  What is called
acts on a map from keys to scores (`Meaning`), and the containers hold this map (`Holds`); only `size`,
which casts to `int`, is the number of its keys exactly as long as there are fewer than `2^31`.
-/
import DoudizhuBackend.Ssdb.Bytes
import DoudizhuBackend.Ssdb.SortedSet
import DoudizhuBackend.OrderedMap
import Mathlib.Data.Set.Card

namespace Ssdb

/-! ## The two containers -/

/-- A node of `std::set<Item>`. -/
structure SetNode (α : Type) where
  addr : ℕ
  item : ℤ × α

/-- The members of `SortedSet`; the addresses from `fresh` on have never been in use. -/
structure IndexedSet (α : Type) [LinearOrder α] where
  existed : OrderedMap α ℕ
  sortedSet : List (SetNode α)
  fresh : ℕ

/-- What is called on a sorted set. -/
inductive SetCall (α : Type) where
  | add (key : α) (score : ℤ)
  | del (key : α)
  | popFront
  | popBack

namespace IndexedSet

variable {α : Type} [LinearOrder α]

/-- The set without items. -/
def empty : IndexedSet α := ⟨OrderedMap.empty, [], 0⟩

/-- `size`, an `int`. -/
def size (s : IndexedSet α) : ℤ := toInt s.sortedSet.length

/-- `*it`. -/
def deref (s : IndexedSet α) (it : ℕ) : Option (ℤ × α) :=
  (s.sortedSet.find? (·.addr = it)).map SetNode.item

/-- `sorted_set.erase(it)`. -/
def erase (s : IndexedSet α) (it : ℕ) : Option (IndexedSet α) :=
  (s.deref it).map fun _ => { s with sortedSet := s.sortedSet.filter (·.addr ≠ it) }

/-- `sorted_set.insert(item)`: the nodes and the iterator to the item, which may be there already. -/
def insertItem (addr : ℕ) (item : ℤ × α) : List (SetNode α) → List (SetNode α) × ℕ
  | [] => ([⟨addr, item⟩], addr)
  | node :: nodes =>
      if itemLt node.item item then (node :: (insertItem addr item nodes).1, (insertItem addr item nodes).2)
      else if itemLt item node.item then (⟨addr, item⟩ :: node :: nodes, addr)
      else (node :: nodes, node.addr)

/-- The end of `add`: a new item, and `existed[key] = p.first`. -/
def link (s : IndexedSet α) (key : α) (score : ℤ) : IndexedSet α :=
  let p := insertItem s.fresh (score, key) s.sortedSet
  ⟨s.existed.put key p.2, p.1, s.fresh + 1⟩

/-- `add`: the item of a key that is there already is erased first, unless its score is the same. -/
def add (s : IndexedSet α) (key : α) (score : ℤ) : Option (ℤ × IndexedSet α) :=
  match s.existed.get key with
  | none => some (1, s.link key score)
  | some it2 => do
      let item ← s.deref it2
      if item.1 = score then some (0, s)
      else
        let s ← s.erase it2
        some (0, s.link key score)

/-- `del`. -/
def del (s : IndexedSet α) (key : α) : Option (ℤ × IndexedSet α) :=
  match s.existed.get key with
  | none => some (0, s)
  | some it => do
      let s ← s.erase it
      some (1, { s with existed := s.existed.delete key })

/-- The item of `front`, none for the result 0. -/
def front (s : IndexedSet α) : Option (ℤ × α) := s.sortedSet.head?.map SetNode.item

/-- `back`. -/
def back (s : IndexedSet α) : Option (ℤ × α) := s.sortedSet.getLast?.map SetNode.item

/-- `back` leaves the score 0 in an empty set. -/
def maxScore (s : IndexedSet α) : ℤ := s.back.elim 0 (·.1)

/-- `existed.erase(item.key)` and `sorted_set.erase(it)`. -/
def popNode (s : IndexedSet α) (node : SetNode α) : Option (ℤ × IndexedSet α) := do
  let s ← { s with existed := s.existed.delete node.item.2 }.erase node.addr
  some (1, s)

/-- `pop_front`. -/
def popFront (s : IndexedSet α) : Option (ℤ × IndexedSet α) :=
  match s.sortedSet.head? with
  | none => some (0, s)
  | some node => s.popNode node

/-- `pop_back`. -/
def popBack (s : IndexedSet α) : Option (ℤ × IndexedSet α) :=
  match s.sortedSet.getLast? with
  | none => some (0, s)
  | some node => s.popNode node

/-- The reply to a call and the set behind it, unless an iterator dangles. -/
def step (s : IndexedSet α) : SetCall α → Option (ℤ × IndexedSet α)
  | .add key score => s.add key score
  | .del key => s.del key
  | .popFront => s.popFront
  | .popBack => s.popBack

/-- The results of the calls and the containers after them. -/
def run : IndexedSet α → List (SetCall α) → Option (List ℤ × IndexedSet α)
  | s, [] => some ([], s)
  | s, c :: cs => do
      let (ret, s) ← s.step c
      let (rets, s) ← s.run cs
      some (ret :: rets, s)

end IndexedSet

/-! ## More on sorted sets -/

namespace SortedSet

variable {α : Type} [LinearOrder α] {m m' : SortedSet α} {key : α} {score : ℤ} {p : ℤ × α}

/-- Sorted sets with the same items are equal. -/
theorem ext_mem (h : ∀ p, p ∈ m.items ↔ p ∈ m'.items) : m = m' := by
  have hnodup : ∀ m : SortedSet α, m.items.Nodup := by
    intro m
    apply m.unique.imp
    rintro a b hne rfl
    exact hne rfl
  have hperm : m.items.Perm m'.items := (List.perm_ext_iff_of_nodup (hnodup m) (hnodup m')).mpr h
  have hitems : m.items = m'.items := hperm.eq_of_pairwise
    (fun a b _ _ hab hba => absurd hba (itemLt_asymm hab)) m.sorted m'.sorted
  obtain ⟨items, sorted, unique⟩ := m
  cases hitems
  rfl

/-- The deletion of a key that is not there. -/
theorem del_of_absent (h : ∀ p ∈ m.items, p.2 ≠ key) : m.del key = m := by
  apply ext_mem
  intro p
  rw [mem_del]
  exact ⟨fun hp => hp.1, fun hp => ⟨hp, h p hp⟩⟩

/-- A new key finds its place by its score. -/
theorem items_add_of_absent (h : ∀ p ∈ m.items, p.2 ≠ key) :
    (m.add key score).items = m.items.filter (itemLt · (score, key)) ++ (score, key) ::
      m.items.filter (itemLt (score, key) ·) := by
  show (m.del key).items.filter _ ++ (score, key) :: (m.del key).items.filter _ = _
  rw [del_of_absent h]

/-- `add` replaces what is there. -/
theorem add_del : (m.del key).add key score = m.add key score := by
  apply ext_mem
  intro p
  rw [mem_add, mem_add, mem_del]
  tauto

/-- Adding an item that is there changes nothing. -/
theorem add_of_mem (h : (score, key) ∈ m.items) : m.add key score = m := by
  apply ext_mem
  intro p
  rw [mem_add]
  constructor
  · rintro (rfl | hp)
    · exact h
    · exact hp.1
  · intro hp
    by_cases hkey : p.2 = key
    · exact Or.inl (eq_of_mem hp h hkey)
    · exact Or.inr ⟨hp, hkey⟩

/-- A pop at the front deletes the first key. -/
theorem popFront_eq_del (hp : m.front = some p) : m.popFront = m.del p.2 := by
  apply ext_mem
  intro q
  rw [mem_popFront hp, mem_del]

/-- A pop at the back deletes the last key. -/
theorem popBack_eq_del (hp : m.back = some p) : m.popBack = m.del p.2 := by
  apply ext_mem
  intro q
  rw [mem_popBack hp, mem_del]

end SortedSet

/-! ## The containers mirror a sorted set -/

namespace IndexedSet

variable {α : Type} [LinearOrder α] {s : IndexedSet α} {m : SortedSet α} {key : α} {score : ℤ}

/-- The nodes hold the items of `m`, and the index is right for all keys but one that `m` has not. -/
structure MirrorsBut (s : IndexedSet α) (m : SortedSet α) (key : α) : Prop where
  items : s.sortedSet.map SetNode.item = m.items
  addrs : s.sortedSet.Pairwise fun p q => p.addr ≠ q.addr
  fresh : ∀ node ∈ s.sortedSet, node.addr < s.fresh
  absent : ∀ p ∈ m.items, p.2 ≠ key
  index : ∀ k it, k ≠ key → (s.existed.get k = some it ↔ ∃ score, ⟨it, score, k⟩ ∈ s.sortedSet)

/-- **The invariant**: the nodes hold the items, and the index has the iterators to them. -/
structure Mirrors (s : IndexedSet α) (m : SortedSet α) : Prop where
  items : s.sortedSet.map SetNode.item = m.items
  addrs : s.sortedSet.Pairwise fun p q => p.addr ≠ q.addr
  fresh : ∀ node ∈ s.sortedSet, node.addr < s.fresh
  index : ∀ k it, s.existed.get k = some it ↔ ∃ score, ⟨it, score, k⟩ ∈ s.sortedSet

/-- The two empty sets mirror each other. -/
theorem mirrors_empty : Mirrors (empty : IndexedSet α) SortedSet.empty where
  items := rfl
  addrs := .nil
  fresh := by simp [empty]
  index := by simp [empty, OrderedMap.get_empty]

/-- An iterator to a node gives its item. -/
theorem deref_of_mem (haddrs : s.sortedSet.Pairwise fun p q => p.addr ≠ q.addr) {node : SetNode α}
    (h : node ∈ s.sortedSet) : s.deref node.addr = some node.item := by
  have hsymm : Std.Symm fun p q : SetNode α => p.addr ≠ q.addr := ⟨fun _ _ h => h.symm⟩
  cases hfind : s.sortedSet.find? (·.addr = node.addr) with
  | none => exact absurd (List.find?_eq_none.mp hfind node h) (by simp)
  | some other =>
      have haddr : other.addr = node.addr := by simpa using List.find?_some hfind
      have hsame : other = node := by
        by_contra hne
        exact haddrs.forall (List.mem_of_find?_eq_some hfind) h hne haddr
      rw [deref, hfind, hsame]
      rfl

/-- An iterator to a node that is there erases it. -/
theorem erase_of_mem (haddrs : s.sortedSet.Pairwise fun p q => p.addr ≠ q.addr) {node : SetNode α}
    (h : node ∈ s.sortedSet) :
    s.erase node.addr = some { s with sortedSet := s.sortedSet.filter (·.addr ≠ node.addr) } := by
  rw [erase, deref_of_mem haddrs h, Option.map_some]

/-- Where a new item goes. -/
theorem insertItem_eq (addr : ℕ) (item : ℤ × α) {nodes : List (SetNode α)}
    (hsorted : (nodes.map SetNode.item).Pairwise itemLt) (habsent : ∀ node ∈ nodes, node.item.2 ≠ item.2) :
    insertItem addr item nodes = (nodes.filter (itemLt ·.item item) ++ ⟨addr, item⟩ ::
      nodes.filter (itemLt item ·.item), addr) := by
  induction nodes with
  | nil => rfl
  | cons node nodes ih =>
      rw [List.map_cons, List.pairwise_cons] at hsorted
      rw [List.forall_mem_cons] at habsent
      rw [insertItem]
      rcases itemLt_total habsent.1 with hlt | hgt
      · rw [if_pos hlt, ih hsorted.2 habsent.2, List.filter_cons_of_pos (by simpa using hlt),
          List.filter_cons_of_neg (by simpa using itemLt_asymm hlt)]
        rfl
      · -- all nodes are behind the new item
        have hall : ∀ other ∈ node :: nodes, itemLt item other.item := by
          rw [List.forall_mem_cons]
          exact ⟨hgt, fun other hother =>
            itemLt_trans hgt (hsorted.1 other.item (List.mem_map_of_mem hother))⟩
        rw [if_neg (itemLt_asymm hgt), if_pos hgt, List.filter_eq_nil_iff.mpr, List.filter_eq_self.mpr]
        · rfl
        · simpa using hall
        · simpa using fun other hother => itemLt_asymm (hall other hother)

namespace MirrorsBut

/-- The new item is linked. -/
theorem link (h : MirrorsBut s m key) (score : ℤ) : Mirrors (s.link key score) (m.add key score) := by
  have habsent : ∀ node ∈ s.sortedSet, node.item.2 ≠ key := by
    intro node hnode
    exact h.absent node.item (h.items ▸ List.mem_map_of_mem hnode)
  have hnodes := insertItem_eq s.fresh (score, key) (h.items ▸ m.sorted) habsent
  have hmem : ∀ node, node ∈ (s.link key score).sortedSet ↔
      node = ⟨s.fresh, score, key⟩ ∨ node ∈ s.sortedSet := by
    intro node
    rw [IndexedSet.link, hnodes]
    simp only [List.mem_append, List.mem_cons, List.mem_filter, decide_eq_true_eq]
    constructor
    · tauto
    · rintro (rfl | hnode)
      · simp
      · rcases itemLt_total (q := (score, key)) (habsent node hnode) with hlt | hgt
        · exact Or.inl ⟨hnode, hlt⟩
        · exact Or.inr (Or.inr ⟨hnode, hgt⟩)
  refine ⟨?_, ?_, ?_, ?_⟩
  · show (insertItem s.fresh (score, key) s.sortedSet).1.map SetNode.item = _
    rw [hnodes, SortedSet.items_add_of_absent h.absent, ← h.items, List.filter_map, List.filter_map,
      List.map_append, List.map_cons]
    rfl
  · show (insertItem s.fresh (score, key) s.sortedSet).1.Pairwise _
    -- the new node has an address of its own
    have hsymm : Std.Symm fun p q : SetNode α => p.addr ≠ q.addr := ⟨fun _ _ h => h.symm⟩
    rw [hnodes, List.pairwise_append, List.pairwise_cons]
    refine ⟨h.addrs.filter _, ⟨?_, h.addrs.filter _⟩, ?_⟩
    · intro node hnode
      exact (h.fresh node (List.mem_filter.mp hnode).1).ne'
    · intro p hp q hq
      obtain ⟨hp, hplt⟩ := List.mem_filter.mp hp
      rcases List.mem_cons.mp hq with rfl | hq
      · exact (h.fresh p hp).ne
      · obtain ⟨hq, hqlt⟩ := List.mem_filter.mp hq
        apply h.addrs.forall hp hq
        rintro rfl
        exact itemLt_asymm (of_decide_eq_true hplt) (of_decide_eq_true hqlt)
  · intro node hnode
    show node.addr < s.fresh + 1
    rcases (hmem node).mp hnode with rfl | hnode
    · exact Nat.lt_succ_self _
    · exact Nat.lt_succ_of_lt (h.fresh node hnode)
  · intro k it
    simp only [hmem]
    show (s.existed.put key (insertItem s.fresh (score, key) s.sortedSet).2).get k = some it ↔ _
    -- the key leads to the new node, every other key where it led
    rw [hnodes, OrderedMap.get_put]
    split_ifs with hkey
    · subst hkey
      constructor
      · intro hit
        obtain rfl := Option.some.inj hit
        exact ⟨score, Or.inl rfl⟩
      · rintro ⟨score', hnew | hold⟩
        · rw [SetNode.mk.injEq] at hnew
          rw [hnew.1]
        · exact absurd rfl (habsent _ hold)
    · rw [h.index k it hkey]
      constructor
      · rintro ⟨score', hold⟩
        exact ⟨score', Or.inr hold⟩
      · rintro ⟨score', hnew | hold⟩
        · rw [SetNode.mk.injEq, Prod.mk.injEq] at hnew
          exact absurd hnew.2.2 hkey
        · exact ⟨score', hold⟩

/-- The key goes out of the index. -/
theorem unlink (h : MirrorsBut s m key) : Mirrors { s with existed := s.existed.delete key } m where
  items := h.items
  addrs := h.addrs
  fresh := h.fresh
  index := by
    intro k it
    show (s.existed.delete key).get k = some it ↔ _
    rw [OrderedMap.get_delete]
    split_ifs with hkey
    · subst hkey
      constructor
      · intro hnone
        cases hnone
      · rintro ⟨score, hnode⟩
        have hmem : (score, k) ∈ m.items := h.items ▸ List.mem_map_of_mem (f := SetNode.item) hnode
        exact absurd rfl (h.absent _ hmem)
    · exact h.index k it hkey

end MirrorsBut

namespace Mirrors

/-- The sets mirror each other but for a key that is not there. -/
theorem mirrorsBut (h : Mirrors s m) (habsent : ∀ p ∈ m.items, p.2 ≠ key) : MirrorsBut s m key :=
  ⟨h.items, h.addrs, h.fresh, habsent, fun k it _ => h.index k it⟩

/-- A node is erased, and its key keeps an iterator to it. -/
theorem erase (h : Mirrors s m) {node : SetNode α} (hnode : node ∈ s.sortedSet) :
    ∃ nodes, s.erase node.addr = some { s with sortedSet := nodes } ∧
      MirrorsBut { s with sortedSet := nodes } (m.del node.item.2) node.item.2 := by
  have hitem : node.item ∈ m.items := h.items ▸ List.mem_map_of_mem hnode
  -- nodes differ in their addresses and in their keys
  have haddr : ∀ p ∈ s.sortedSet, p.addr = node.addr ↔ p.item.2 = node.item.2 := by
    have hsymm : Std.Symm fun p q : SetNode α => p.addr ≠ q.addr := ⟨fun _ _ h => h.symm⟩
    intro p hp
    constructor
    · intro hsame
      by_contra hne
      exact h.addrs.forall hp hnode (fun heq => hne (heq ▸ rfl)) hsame
    · intro hsame
      have hpm : p.item ∈ m.items := h.items ▸ List.mem_map_of_mem hp
      have hiter : ∀ q : SetNode α, q ∈ s.sortedSet → s.existed.get q.item.2 = some q.addr :=
        fun q hq => (h.index _ _).mpr ⟨q.item.1, hq⟩
      exact Option.some.inj ((hiter p hp).symm.trans (hsame ▸ hiter node hnode))
  refine ⟨_, erase_of_mem h.addrs hnode, ?_⟩
  refine ⟨?_, h.addrs.filter _, fun p hp => h.fresh p (List.mem_filter.mp hp).1, ?_, ?_⟩
  · show (s.sortedSet.filter (·.addr ≠ node.addr)).map SetNode.item = m.items.filter (·.2 ≠ node.item.2)
    rw [← h.items, List.filter_map]
    congr 1
    apply List.filter_congr
    intro p hp
    simp [haddr p hp]
  · intro p hp
    exact (SortedSet.mem_del.mp hp).2
  · intro k it hk
    show s.existed.get k = some it ↔ _
    rw [h.index]
    apply exists_congr
    intro score
    simp only [List.mem_filter, ne_eq, decide_eq_true_eq]
    exact ⟨fun hp => ⟨hp, fun hsame => hk ((haddr _ hp).mp hsame)⟩, fun hp => hp.1⟩

/-- The key of an item has an iterator to its node. -/
theorem index_some (h : Mirrors s m) {it : ℕ} (hit : s.existed.get key = some it) :
    ∃ node ∈ s.sortedSet, node.addr = it ∧ node.item.2 = key ∧ node.item ∈ m.items := by
  obtain ⟨score, hnode⟩ := (h.index key it).mp hit
  exact ⟨_, hnode, rfl, rfl, h.items ▸ List.mem_map_of_mem (f := SetNode.item) hnode⟩

/-- A key without an iterator has no item. -/
theorem index_none (h : Mirrors s m) (hit : s.existed.get key = none) : ∀ p ∈ m.items, p.2 ≠ key := by
  rintro p hp rfl
  rw [← h.items] at hp
  obtain ⟨node, hnode, rfl⟩ := List.mem_map.mp hp
  rw [(h.index node.item.2 node.addr).mpr ⟨node.item.1, hnode⟩] at hit
  cases hit

/-- `add` keeps them mirrors. -/
theorem add (h : Mirrors s m) (key : α) (score : ℤ) :
    ∃ s', s.add key score = some (if s.existed.get key = none then 1 else 0, s') ∧
      Mirrors s' (m.add key score) := by
  cases hit : s.existed.get key with
  | none =>
      exact ⟨s.link key score, by simp only [IndexedSet.add, hit, if_true],
        (h.mirrorsBut (h.index_none hit)).link score⟩
  | some it =>
      obtain ⟨node, hnode, rfl, rfl, hitem⟩ := h.index_some hit
      by_cases hscore : node.item.1 = score
      · refine ⟨s, ?_, ?_⟩
        · simp [IndexedSet.add, hit, deref_of_mem h.addrs hnode, hscore]
        · subst hscore
          rw [SortedSet.add_of_mem hitem]
          exact h
      · obtain ⟨nodes, herase, hbut⟩ := h.erase hnode
        refine ⟨_, ?_, SortedSet.add_del (m := m) ▸ hbut.link score⟩
        simp [IndexedSet.add, hit, deref_of_mem h.addrs hnode, hscore, herase]

/-- So does `del`. -/
theorem del (h : Mirrors s m) (key : α) :
    ∃ s', s.del key = some (if s.existed.get key = none then 0 else 1, s') ∧ Mirrors s' (m.del key) := by
  cases hit : s.existed.get key with
  | none =>
      rw [SortedSet.del_of_absent (h.index_none hit)]
      exact ⟨s, by simp only [IndexedSet.del, hit, if_true], h⟩
  | some it =>
      obtain ⟨node, hnode, rfl, rfl, -⟩ := h.index_some hit
      obtain ⟨nodes, herase, hbut⟩ := h.erase hnode
      exact ⟨_, by simp [IndexedSet.del, hit, herase], hbut.unlink⟩

/-- So does a pop of any node. -/
theorem popNode (h : Mirrors s m) {node : SetNode α} (hnode : node ∈ s.sortedSet) :
    ∃ s', s.popNode node = some (1, s') ∧ Mirrors s' (m.del node.item.2) := by
  obtain ⟨nodes, herase, hbut⟩ := h.erase hnode
  refine ⟨_, ?_, hbut.unlink⟩
  have hsame : { s with existed := s.existed.delete node.item.2 }.erase node.addr =
      (s.erase node.addr).map fun s' => { s' with existed := s.existed.delete node.item.2 } := by
    simp only [IndexedSet.erase, deref, Option.map_map]
    rfl
  simp [IndexedSet.popNode, hsame, herase]

/-- Mirrors have the same first item. -/
theorem front_eq (h : Mirrors s m) : s.front = m.front := by
  rw [front, SortedSet.front, ← h.items, List.head?_map]

/-- And the same last item. -/
theorem back_eq (h : Mirrors s m) : s.back = m.back := by
  rw [back, SortedSet.back, ← h.items, List.getLast?_map]

/-- `pop_front` keeps them mirrors. -/
theorem popFront (h : Mirrors s m) :
    ∃ s', s.popFront = some (if m.front = none then 0 else 1, s') ∧ Mirrors s' m.popFront := by
  have hfront := h.front_eq
  rw [front] at hfront
  cases hhead : s.sortedSet.head? with
  | none =>
      rw [hhead] at hfront
      have hsame : m.popFront = m := by
        apply SortedSet.ext_mem
        simp [SortedSet.popFront, SortedSet.front_eq_none hfront.symm]
      rw [← hfront, hsame]
      exact ⟨s, by simp only [IndexedSet.popFront, hhead, Option.map_none, if_true], h⟩
  | some node =>
      rw [hhead, Option.map_some] at hfront
      obtain ⟨s', hpop, hs'⟩ := h.popNode (List.mem_of_head? hhead)
      rw [SortedSet.popFront_eq_del hfront.symm, ← hfront]
      exact ⟨s', by simp only [IndexedSet.popFront, hhead, hpop, reduceCtorEq, if_false], hs'⟩

/-- So does `pop_back`. -/
theorem popBack (h : Mirrors s m) :
    ∃ s', s.popBack = some (if m.back = none then 0 else 1, s') ∧ Mirrors s' m.popBack := by
  have hback := h.back_eq
  rw [back] at hback
  cases hlast : s.sortedSet.getLast? with
  | none =>
      rw [hlast] at hback
      have hnil : m.items = [] := List.getLast?_eq_none_iff.mp hback.symm
      have hsame : m.popBack = m := by
        apply SortedSet.ext_mem
        simp [SortedSet.popBack, hnil]
      rw [← hback, hsame]
      exact ⟨s, by simp only [IndexedSet.popBack, hlast, Option.map_none, if_true], h⟩
  | some node =>
      rw [hlast, Option.map_some] at hback
      obtain ⟨s', hpop, hs'⟩ := h.popNode (List.mem_of_getLast? hlast)
      rw [SortedSet.popBack_eq_del hback.symm, ← hback]
      exact ⟨s', by simp only [IndexedSet.popBack, hlast, hpop, reduceCtorEq, if_false], hs'⟩

end Mirrors

end IndexedSet

/-! ## What the calls mean -/

section Meaning

variable {α : Type} [LinearOrder α]

/-- The pair of the map that is before all others. -/
def First (M : α → Option ℤ) (p : ℤ × α) : Prop :=
  M p.2 = some p.1 ∧ ∀ q : ℤ × α, M q.2 = some q.1 → q ≠ p → itemLt p q

/-- The pair of the map that is behind all others. -/
def Last (M : α → Option ℤ) (p : ℤ × α) : Prop :=
  M p.2 = some p.1 ∧ ∀ q : ℤ × α, M q.2 = some q.1 → q ≠ p → itemLt q p

/-- A call, its result, and what becomes of the map from keys to scores. -/
inductive Meaning : (α → Option ℤ) → SetCall α → ℤ → (α → Option ℤ) → Prop where
  | add (M : α → Option ℤ) (key : α) (score : ℤ) :
      Meaning M (.add key score) (if M key = none then 1 else 0) (Function.update M key (some score))
  | del (M : α → Option ℤ) (key : α) :
      Meaning M (.del key) (if M key = none then 0 else 1) (Function.update M key none)
  | popFront {M : α → Option ℤ} {p : ℤ × α} (h : First M p) :
      Meaning M .popFront 1 (Function.update M p.2 none)
  | popBack {M : α → Option ℤ} {p : ℤ × α} (h : Last M p) :
      Meaning M .popBack 1 (Function.update M p.2 none)
  | popFrontEmpty : Meaning (fun _ => none) .popFront 0 (fun _ => none)
  | popBackEmpty : Meaning (fun _ => none) .popBack 0 (fun _ => none)

/-- Calls one after the other. -/
inductive MeaningRun : (α → Option ℤ) → List (SetCall α) → List ℤ → (α → Option ℤ) → Prop where
  | nil (M : α → Option ℤ) : MeaningRun M [] [] M
  | cons {M M' M'' : α → Option ℤ} {c : SetCall α} {cs : List (SetCall α)} {ret : ℤ} {rets : List ℤ}
      (h : Meaning M c ret M') (hs : MeaningRun M' cs rets M'') : MeaningRun M (c :: cs) (ret :: rets) M''

/-- The containers hold the map: both have its keys, each once and with its score, and the ends of the
set are its least and greatest pair. -/
structure Holds (s : IndexedSet α) (M : α → Option ℤ) : Prop where
  existed : ∀ key, (s.existed.get key).isSome ↔ (M key).isSome
  index : ∀ key it, s.existed.get key = some it → ∃ score, s.deref it = some (score, key) ∧ M key = some score
  items : ∀ key score, (score, key) ∈ s.sortedSet.map SetNode.item ↔ M key = some score
  once : (s.sortedSet.map SetNode.item).Pairwise fun p q => p.2 ≠ q.2
  sorted : (s.sortedSet.map SetNode.item).Pairwise itemLt
  front : ∀ p, s.front = some p ↔ First M p
  back : ∀ p, s.back = some p ↔ Last M p
  maxScore : (s.maxScore = 0 ∧ ∀ key, M key = none) ∨
    ((∃ key, M key = some s.maxScore) ∧ ∀ key score, M key = some score → score ≤ s.maxScore)

/-- The score that was added last for a key. -/
def lastAdded (key : α) (last : Option ℤ) : List (SetCall α) → Option ℤ
  | [] => last
  | .add k score :: cs => lastAdded key (if k = key then some score else last) cs
  | _ :: cs => lastAdded key last cs

namespace SortedSet

variable {m : SortedSet α} {key : α} {score : ℤ} {p : ℤ × α}

/-- The map from keys to scores. -/
def content (m : SortedSet α) (key : α) : Option ℤ := (m.items.find? (·.2 = key)).map (·.1)

/-- The content of a set is what its items say. -/
theorem content_eq_some : m.content key = some score ↔ (score, key) ∈ m.items := by
  rw [content, Option.map_eq_some_iff]
  constructor
  · rintro ⟨p, hfind, rfl⟩
    have hkey : p.2 = key := by simpa using List.find?_some hfind
    subst hkey
    exact List.mem_of_find?_eq_some hfind
  · intro hmem
    cases hfind : m.items.find? (·.2 = key) with
    | none => exact absurd (List.find?_eq_none.mp hfind _ hmem) (by simp)
    | some p =>
        have hkey : p.2 = key := by simpa using List.find?_some hfind
        rw [eq_of_mem (List.mem_of_find?_eq_some hfind) hmem hkey]
        exact ⟨_, rfl, rfl⟩

theorem content_empty : (empty : SortedSet α).content = fun _ => none := rfl

/-- `add` is an update of the content. -/
theorem content_add : (m.add key score).content = Function.update m.content key (some score) := by
  funext k
  apply Option.ext
  intro v
  rw [content_eq_some, mem_add, Function.update_apply]
  split_ifs with hk
  · simp [hk, eq_comm]
  · simp [hk, content_eq_some]

/-- `del` is an update of the content. -/
theorem content_del : (m.del key).content = Function.update m.content key none := by
  funext k
  apply Option.ext
  intro v
  rw [content_eq_some, mem_del, Function.update_apply]
  split_ifs with hk
  · simp [hk]
  · simp [hk, content_eq_some]

/-- The first item is before all others. -/
theorem front_lt {q : ℤ × α} (hp : m.front = some p) (hq : q ∈ m.items) (hne : q ≠ p) : itemLt p q := by
  obtain ⟨items, sorted, unique⟩ := m
  obtain ⟨t, rfl⟩ := List.head?_eq_some_iff.mp hp
  exact (List.pairwise_cons.mp sorted).1 q ((List.mem_cons.mp hq).resolve_left hne)

/-- The last item is behind all others. -/
theorem lt_back {q : ℤ × α} (hp : m.back = some p) (hq : q ∈ m.items) (hne : q ≠ p) : itemLt q p := by
  obtain ⟨items, sorted, unique⟩ := m
  obtain ⟨t, rfl⟩ := List.getLast?_eq_some_iff.mp hp
  rcases List.mem_append.mp hq with hq | hq
  · exact (List.pairwise_append.mp sorted).2.2 q hq p (List.mem_singleton_self p)
  · exact absurd (List.mem_singleton.mp hq) hne

/-- `front` is the first entry of the content. -/
theorem front_iff : m.front = some p ↔ First m.content p := by
  constructor
  · intro hp
    exact ⟨content_eq_some.mpr (front_mem hp), fun q hq => front_lt hp (content_eq_some.mp hq)⟩
  · rintro ⟨hp, hfirst⟩
    rw [content_eq_some] at hp
    cases hfront : m.front with
    | none => exact absurd hp (by simp [front_eq_none hfront])
    | some r =>
        by_cases hne : r = p
        · rw [hne]
        · have hlt := hfirst r (content_eq_some.mpr (front_mem hfront)) hne
          exact absurd (front_lt hfront hp (Ne.symm hne)) (itemLt_asymm hlt)

/-- `back` is the last entry of the content. -/
theorem back_iff : m.back = some p ↔ Last m.content p := by
  constructor
  · intro hp
    exact ⟨content_eq_some.mpr (List.mem_of_getLast? hp), fun q hq => lt_back hp (content_eq_some.mp hq)⟩
  · rintro ⟨hp, hlast⟩
    rw [content_eq_some] at hp
    obtain ⟨r, hr, hback⟩ := back_of_ne_nil (List.ne_nil_of_mem hp)
    rw [hback]
    by_contra hne
    have hne' : r ≠ p := fun heq => hne (heq ▸ rfl)
    exact itemLt_asymm (hlast r (content_eq_some.mpr hr) hne') (lt_back hback hp (Ne.symm hne'))

/-- A sorted set without a first item is empty. -/
theorem content_of_front_none (h : m.front = none) : m.content = fun _ => none := by
  funext key
  rw [content, front_eq_none h]
  rfl

/-- A set without last item is empty. -/
theorem content_of_back_none (h : m.back = none) : m.content = fun _ => none := by
  funext key
  rw [content, List.getLast?_eq_none_iff.mp h]
  rfl

end SortedSet

namespace IndexedSet

variable {s : IndexedSet α} {m : SortedSet α}

/-- The index tells whether the map has a key. -/
theorem Mirrors.existed_none_iff (h : Mirrors s m) (key : α) :
    s.existed.get key = none ↔ m.content key = none := by
  constructor
  · intro hit
    rw [Option.eq_none_iff_forall_not_mem]
    intro score hscore
    exact h.index_none hit _ (SortedSet.content_eq_some.mp hscore) rfl
  · intro hnone
    rw [Option.eq_none_iff_forall_not_mem]
    intro it hit
    obtain ⟨node, hnode, -, rfl, hitem⟩ := h.index_some hit
    have hcontent := SortedSet.content_eq_some.mpr (show (node.item.1, node.item.2) ∈ m.items from hitem)
    rw [hnone] at hcontent
    cases hcontent

/-- **One call**: no iterator dangles, and the call does to the map what it means. -/
theorem Mirrors.step (h : Mirrors s m) (c : SetCall α) :
    ∃ ret s' m', s.step c = some (ret, s') ∧ Mirrors s' m' ∧ Meaning m.content c ret m'.content := by
  cases c with
  | add key score =>
      obtain ⟨s', hstep, hs'⟩ := h.add key score
      refine ⟨_, s', _, hstep, hs', ?_⟩
      simp only [h.existed_none_iff, SortedSet.content_add]
      exact .add m.content key score
  | del key =>
      obtain ⟨s', hstep, hs'⟩ := h.del key
      refine ⟨_, s', _, hstep, hs', ?_⟩
      simp only [h.existed_none_iff, SortedSet.content_del]
      exact .del m.content key
  | popFront =>
      obtain ⟨s', hstep, hs'⟩ := h.popFront
      refine ⟨_, s', _, hstep, hs', ?_⟩
      cases hfront : m.front with
      | none =>
          have hsame : m.popFront.content = fun _ => none := by
            rw [SortedSet.content_of_front_none]
            simp [SortedSet.popFront, SortedSet.front, SortedSet.front_eq_none hfront]
          rw [hsame, SortedSet.content_of_front_none hfront]
          exact .popFrontEmpty
      | some p =>
          rw [SortedSet.popFront_eq_del hfront, SortedSet.content_del]
          exact .popFront (SortedSet.front_iff.mp hfront)
  | popBack =>
      obtain ⟨s', hstep, hs'⟩ := h.popBack
      refine ⟨_, s', _, hstep, hs', ?_⟩
      cases hback : m.back with
      | none =>
          have hsame : m.popBack.content = fun _ => none := by
            rw [SortedSet.content_of_back_none]
            simp [SortedSet.popBack, SortedSet.back, List.getLast?_eq_none_iff.mp hback]
          rw [hsame, SortedSet.content_of_back_none hback]
          exact .popBackEmpty
      | some p =>
          rw [SortedSet.popBack_eq_del hback, SortedSet.content_del]
          exact .popBack (SortedSet.back_iff.mp hback)

/-- **Any calls.** -/
theorem Mirrors.run (cs : List (SetCall α)) : ∀ {s : IndexedSet α} {m : SortedSet α}, Mirrors s m →
    ∃ rets s' m', s.run cs = some (rets, s') ∧ Mirrors s' m' ∧ MeaningRun m.content cs rets m'.content := by
  induction cs with
  | nil => exact fun {s m} h => ⟨[], s, m, rfl, h, .nil _⟩
  | cons c cs ih =>
      intro s m h
      obtain ⟨ret, s₁, m₁, hstep, h₁, hmeaning⟩ := h.step c
      obtain ⟨rets, s', m', hrun, h', hmeanings⟩ := ih h₁
      exact ⟨ret :: rets, s', m', by simp [IndexedSet.run, hstep, hrun], h', .cons hmeaning hmeanings⟩

/-- What the containers hold. -/
theorem Mirrors.holds (h : Mirrors s m) : Holds s m.content where
  existed := by
    intro key
    rw [← not_iff_not, Bool.not_eq_true, Bool.not_eq_true, Option.isSome_eq_false_iff,
      Option.isSome_eq_false_iff, Option.isNone_iff_eq_none, Option.isNone_iff_eq_none]
    exact h.existed_none_iff key
  index := by
    intro key it hit
    obtain ⟨node, hnode, rfl, rfl, hitem⟩ := h.index_some hit
    exact ⟨node.item.1, deref_of_mem h.addrs hnode, SortedSet.content_eq_some.mpr hitem⟩
  items := by
    intro key score
    rw [h.items, SortedSet.content_eq_some]
  once := h.items ▸ m.unique
  sorted := h.items ▸ m.sorted
  front := by
    intro p
    rw [h.front_eq, SortedSet.front_iff]
  back := by
    intro p
    rw [h.back_eq, SortedSet.back_iff]
  maxScore := by
    have hmax : s.maxScore = m.maxScore := by rw [maxScore, SortedSet.maxScore, h.back_eq]
    rw [hmax]
    cases hback : m.back with
    | none =>
        left
        rw [SortedSet.content_of_back_none hback, SortedSet.maxScore, hback]
        exact ⟨rfl, fun _ => rfl⟩
    | some p =>
        right
        have hscore : m.maxScore = p.1 := by rw [SortedSet.maxScore, hback]; rfl
        refine ⟨⟨p.2, ?_⟩, ?_⟩
        · rw [hscore]
          exact SortedSet.content_eq_some.mpr (List.mem_of_getLast? hback)
        · intro key score hcontent
          exact SortedSet.le_maxScore (SortedSet.content_eq_some.mp hcontent)

/-- The number of keys is that of the nodes. -/
theorem Mirrors.ncard_keys (h : Mirrors s m) : {key | m.content key ≠ none}.ncard = s.sortedSet.length := by
  have hkeys : {key | m.content key ≠ none} = ((m.items.map (·.2)).toFinset : Set α) := by
    ext key
    simp only [Set.mem_ofPred_eq, Option.ne_none_iff_exists', SortedSet.content_eq_some, List.coe_toFinset,
      List.mem_map, Prod.exists, exists_eq_right]
  have hnodup : (m.items.map (·.2)).Nodup := List.pairwise_map.mpr m.unique
  rw [hkeys, Set.ncard_coe_finset, List.toFinset_card_of_nodup hnodup, List.length_map, ← h.items,
    List.length_map]

/-- The cast of `size` keeps the number of keys exactly when it fits an `int`. -/
theorem size_iff (s : IndexedSet α) : s.size = s.sortedSet.length ↔ s.sortedSet.length < 2 ^ 31 := by
  constructor
  · intro hsize
    have hlt := toInt_lt s.sortedSet.length
    rw [← size, hsize] at hlt
    omega
  · exact fun hlt => toInt_of_lt hlt

end IndexedSet

/-- A key in the map has the score that was added last. -/
theorem MeaningRun.lastAdded {M M' : α → Option ℤ} {cs : List (SetCall α)} {rets : List ℤ}
    (h : MeaningRun M cs rets M') {key : α} {score : ℤ} : ∀ {last : Option ℤ},
    (∀ score, M key = some score → last = some score) → M' key = some score →
    lastAdded key last cs = some score := by
  induction h with
  | nil M => exact fun hlast hkey => hlast score hkey
  | @cons M M₁ M' c cs ret rets hstep hs ih =>
      intro last hlast hkey
      -- a call other than `add` gives no key a new score
      have hupdate : ∀ k, (∀ score, Function.update M k none key = some score → last = some score) := by
        intro k score hscore
        rw [Function.update_apply] at hscore
        split_ifs at hscore
        exact hlast score hscore
      cases hstep with
      | add M k v =>
          apply ih _ hkey
          intro w hw
          rw [Function.update_apply] at hw
          by_cases hk : key = k
          · rw [if_pos hk.symm]
            rwa [if_pos hk] at hw
          · rw [if_neg (Ne.symm hk)]
            rw [if_neg hk] at hw
            exact hlast w hw
      | del M k => exact ih (hupdate k) hkey
      | popFront hp => exact ih (hupdate _) hkey
      | popBack hp => exact ih (hupdate _) hkey
      | popFrontEmpty => exact ih hlast hkey
      | popBackEmpty => exact ih hlast hkey

/-- Keys that are only added stay. -/
theorem MeaningRun.keys_of_adds {M M' : α → Option ℤ} {rets : List ℤ} {keys : List α}
    (h : MeaningRun M (keys.map fun key => .add key 0) rets M') (key : α) :
    M' key ≠ none ↔ M key ≠ none ∨ key ∈ keys := by
  induction keys generalizing M rets with
  | nil =>
      cases h
      simp
  | cons k keys ih =>
      cases h with
      | cons hstep hs =>
          cases hstep
          rw [ih hs, Function.update_apply]
          by_cases hkey : key = k
          · simp [hkey]
          · simp [hkey]

/-- **A sorted set is a map with an order**, after any calls: the containers hold the map that the calls
mean, whose scores are those added last, and the results are those that the calls mean; `size` is the number
of keys exactly when there are fewer than `2^31`. -/
theorem sorted_set_map (cs : List (SetCall α)) :
    ∃ rets s M, IndexedSet.empty.run cs = some (rets, s) ∧ MeaningRun (fun _ => none) cs rets M ∧ Holds s M ∧
      (∀ key score, M key = some score → lastAdded key none cs = some score) ∧
      (s.size = {key | M key ≠ none}.ncard ↔ {key | M key ≠ none}.ncard < 2 ^ 31) := by
  obtain ⟨rets, s, m, hrun, hmirrors, hmeaning⟩ := IndexedSet.mirrors_empty.run cs
  rw [SortedSet.content_empty] at hmeaning
  refine ⟨rets, s, m.content, hrun, hmeaning, hmirrors.holds, ?_, ?_⟩
  · intro key score hscore
    exact hmeaning.lastAdded (by simp) hscore
  · rw [hmirrors.ncard_keys]
    exact s.size_iff

end Meaning

/-! ## Too many keys -/

/-- `add` of the texts of the first `n` numbers. -/
def addTexts (n : ℕ) : List (SetCall Bytes) :=
  ((List.range n).map fun i : ℕ => str i).map fun key => .add key 0

/-- **`2^31` keys**: the size of the set is negative. -/
theorem size_of_tooMany : ∃ rets s, IndexedSet.empty.run (addTexts (2 ^ 31)) = some (rets, s) ∧
    s.sortedSet.length = 2 ^ 31 ∧ s.size = -2 ^ 31 := by
  generalize hn : (2 : ℕ) ^ 31 = n
  obtain ⟨rets, s, m, hrun, hmirrors, hmeaning⟩ := IndexedSet.mirrors_empty.run (addTexts n)
  have hlength : s.sortedSet.length = n := by
    have hkeys : {key | m.content key ≠ none} = (fun i : ℕ => str i) '' (Finset.range n : Set ℕ) := by
      ext key
      rw [SortedSet.content_empty] at hmeaning
      rw [Set.mem_ofPred_eq, hmeaning.keys_of_adds]
      simp
    have hinj : Function.Injective fun i : ℕ => str i := fun i j hij => by
      exact_mod_cast str_injective hij
    rw [← hmirrors.ncard_keys, hkeys, Set.ncard_image_of_injective _ hinj, Set.ncard_coe_finset,
      Finset.card_range]
  refine ⟨rets, s, hrun, hlength, ?_⟩
  rw [IndexedSet.size, hlength, ← hn]
  decide

end Ssdb

/-
# Nodes of a cluster and their key ranges

`ssdb-master/src/cluster.cpp` and `cluster.h`: the list of the nodes that serve key-value pairs.  Each
has a key range `(begin, end]`; a node whose status is `SERVING` answers to the keys of its range.

`set_kv_range` refuses a range that overlaps with that of a serving node, so changing ranges never
makes two serving nodes share a key.  `set_kv_status` looks at no range: the ranges of the serving nodes
stay disjoint (`serving_ranges_disjoint`) as long as a node starts to serve only when its range overlaps
with none of theirs, and not otherwise (`serving_ranges_overlap`).

The database behind the list, which `add_kv_node` and the others also write, is only read at the start.
-/
import DoudizhuBackend.GuardedRun
import DoudizhuBackend.Ssdb.Keys
import Mathlib.Data.List.Lex
import Mathlib.Data.List.Pairwise
import Mathlib.Order.Fin.Basic

namespace Ssdb

/-! ## Key ranges -/

/-- The keys behind `first` up to `last`; an empty bound is none. -/
structure KeyRange where
  first : Bytes
  last : Bytes

namespace KeyRange

/-- `overlapped`: whether two ranges have a key in common; an empty bound is open. -/
def overlapped (r range : KeyRange) : Bool :=
  if r.first ≠ [] ∧ range.last ≠ [] ∧ range.last ≤ r.first then false
  else if r.last ≠ [] ∧ range.first ≠ [] ∧ r.last ≤ range.first then false
  else true

/-- The key lies in the range. -/
def Contains (r : KeyRange) (key : Bytes) : Prop :=
  (r.first = [] ∨ r.first < key) ∧ (r.last = [] ∨ key ≤ r.last)

theorem not_contains_both {r range : KeyRange} (h : r.overlapped range = false) (key : Bytes) :
    ¬ (r.Contains key ∧ range.Contains key) := by
  rintro ⟨⟨hfirst, hlast⟩, ⟨hfirst', hlast'⟩⟩
  unfold overlapped at h
  split at h
  · rename_i hbefore
    obtain ⟨hne, hne', hle⟩ := hbefore
    have hlt := (hfirst.resolve_left hne).trans_le (hlast'.resolve_left hne')
    exact absurd hle (not_le.mpr hlt)
  · split at h
    · rename_i hbehind
      obtain ⟨hne, hne', hle⟩ := hbehind
      have hlt := (hfirst'.resolve_left hne').trans_le (hlast.resolve_left hne)
      exact absurd hle (not_le.mpr hlt)
    · cases h

theorem overlapped_comm (r range : KeyRange) : r.overlapped range = range.overlapped r := by
  unfold overlapped
  split_ifs <;> tauto

end KeyRange

/-! ## The list of nodes -/

/-- `Node`. -/
structure Node where
  id : ℤ
  status : ℤ
  range : KeyRange
  ip : Bytes
  port : ℤ

namespace Node

/-- The status of a node that does not serve yet. -/
def INIT : ℤ := 0

/-- The status of a node that serves its range. -/
def SERVING : ℤ := 1

end Node

/-- `Cluster`; `next_id` is an `int` in the source, and has no bound here. -/
structure Cluster where
  nextId : ℤ
  kvNodeList : List Node

/-- The calls that change the list. -/
inductive ClusterCall where
  | addKvNode (ip : Bytes) (port : ℤ)
  | delKvNode (id : ℤ)
  | setKvRange (id : ℤ) (range : KeyRange)
  | setKvStatus (id status : ℤ)

namespace Cluster

/-- A cluster without nodes. -/
def new : Cluster := ⟨1, []⟩

def addKvNode (c : Cluster) (ip : Bytes) (port : ℤ) : Cluster :=
  { nextId := c.nextId + 1
    kvNodeList := c.kvNodeList ++ [⟨c.nextId, Node.INIT, ⟨[], []⟩, ip, port⟩] }

/-- `del_kv_node`. -/
def delKvNode (c : Cluster) (id : ℤ) : Cluster :=
  { c with kvNodeList := c.kvNodeList.eraseP fun node => node.id = id }

/-- A change of the node that `get_kv_node_ref` finds. -/
def modifyNode (id : ℤ) (f : Node → Node) : List Node → List Node
  | [] => []
  | node :: nodes => if node.id = id then f node :: nodes else node :: modifyNode id f nodes

/-- Some other node serves keys of the range. -/
def rangeTaken (c : Cluster) (id : ℤ) (range : KeyRange) : Bool :=
  c.kvNodeList.any fun node =>
    node.id ≠ id && (node.status = Node.SERVING && node.range.overlapped range)

/-- `set_kv_range`; an overlapping range is refused. -/
def setKvRange (c : Cluster) (id : ℤ) (range : KeyRange) : Cluster :=
  if c.rangeTaken id range then c
  else { c with kvNodeList := modifyNode id (fun node => { node with range := range }) c.kvNodeList }

/-- `set_kv_status`, without a look at the other nodes. -/
def setKvStatus (c : Cluster) (id status : ℤ) : Cluster :=
  { c with kvNodeList := modifyNode id (fun node => { node with status := status }) c.kvNodeList }

/-- The cluster after a call. -/
def step (c : Cluster) : ClusterCall → Cluster
  | .addKvNode ip port => c.addKvNode ip port
  | .delKvNode id => c.delKvNode id
  | .setKvRange id range => c.setKvRange id range
  | .setKvStatus id status => c.setKvStatus id status

/-! ## Serving ranges -/

/-- A node starts to serve only when its range overlaps with that of no serving node. -/
def ServesApart (c : Cluster) : ClusterCall → Prop
  | .setKvStatus id status => status = Node.SERVING →
      ∀ node ∈ c.kvNodeList, node.id = id → c.rangeTaken id node.range = false
  | _ => True

instance (c : Cluster) : DecidablePred c.ServesApart
  | .setKvStatus id status => inferInstanceAs (Decidable (status = Node.SERVING →
      ∀ node ∈ c.kvNodeList, node.id = id → c.rangeTaken id node.range = false))
  | .addKvNode _ _ => inferInstanceAs (Decidable True)
  | .delKvNode _ => inferInstanceAs (Decidable True)
  | .setKvRange _ _ => inferInstanceAs (Decidable True)

/-- Different nodes, whose ranges do not overlap if both serve. -/
def Apart (a b : Node) : Prop :=
  a.id ≠ b.id ∧
    (a.status = Node.SERVING → b.status = Node.SERVING → a.range.overlapped b.range = false)

theorem Apart.symm {a b : Node} (h : Apart a b) : Apart b a := by
  refine ⟨h.1.symm, ?_⟩
  intro hb ha
  rw [KeyRange.overlapped_comm]
  exact h.2 ha hb

/-- The ids are those given so far, and the nodes are apart. -/
structure Ordered (c : Cluster) : Prop where
  ids : ∀ node ∈ c.kvNodeList, node.id < c.nextId
  apart : c.kvNodeList.Pairwise Apart

variable {c : Cluster} {id : ℤ} {f : Node → Node}

theorem mem_modifyNode {nodes : List Node} {node : Node} (h : node ∈ modifyNode id f nodes) :
    node ∈ nodes ∨ ∃ node' ∈ nodes, node'.id = id ∧ node = f node' := by
  induction nodes with
  | nil => cases h
  | cons node' nodes ih =>
      rw [modifyNode] at h
      split at h
      · rename_i hid
        rcases List.mem_cons.mp h with rfl | h
        · exact Or.inr ⟨node', List.mem_cons_self, hid, rfl⟩
        · exact Or.inl (List.mem_cons_of_mem _ h)
      · rcases List.mem_cons.mp h with rfl | h
        · exact Or.inl List.mem_cons_self
        · rcases ih h with h | ⟨node'', hmem, hid, heq⟩
          · exact Or.inl (List.mem_cons_of_mem _ h)
          · exact Or.inr ⟨node'', List.mem_cons_of_mem _ hmem, hid, heq⟩

/-- A change of one node keeps the nodes apart if the changed node is apart from the others. -/
theorem pairwise_modifyNode {nodes : List Node} (h : nodes.Pairwise Apart)
    (hf : ∀ node ∈ nodes, node.id = id → ∀ node' ∈ nodes, node'.id ≠ id → Apart (f node) node') :
    (modifyNode id f nodes).Pairwise Apart := by
  induction nodes with
  | nil => exact List.Pairwise.nil
  | cons node nodes ih =>
      rw [List.pairwise_cons] at h
      rw [modifyNode]
      split
      · rename_i hid
        rw [List.pairwise_cons]
        refine ⟨?_, h.2⟩
        intro node' hnode'
        apply hf node List.mem_cons_self hid node' (List.mem_cons_of_mem _ hnode')
        rw [← hid]
        exact (h.1 node' hnode').1.symm
      · rename_i hid
        rw [List.pairwise_cons]
        constructor
        · intro node' hnode'
          rcases mem_modifyNode hnode' with hnode' | ⟨node'', hmem, hid', rfl⟩
          · exact h.1 node' hnode'
          · exact (hf node'' (List.mem_cons_of_mem _ hmem) hid' node List.mem_cons_self hid).symm
        · refine ih h.2 ?_
          intro node₁ h₁ hid₁ node₂ h₂ hid₂
          exact hf node₁ (List.mem_cons_of_mem _ h₁) hid₁ node₂ (List.mem_cons_of_mem _ h₂) hid₂

/-- A range that is not taken overlaps with no other serving node. -/
theorem not_overlapped_of_rangeTaken {range : KeyRange} (h : c.rangeTaken id range = false)
    {node : Node} (hnode : node ∈ c.kvNodeList) (hid : node.id ≠ id)
    (hserving : node.status = Node.SERVING) : range.overlapped node.range = false := by
  rw [rangeTaken, List.any_eq_false] at h
  have := h node hnode
  rw [KeyRange.overlapped_comm]
  simpa [hid, hserving] using this

theorem Ordered.modify (h : c.Ordered) (id : ℤ) (f : Node → Node) (hid : ∀ node, (f node).id = node.id)
    (hf : ∀ node ∈ c.kvNodeList, node.id = id → ∀ node' ∈ c.kvNodeList, node'.id ≠ id →
      Apart (f node) node') :
    Ordered { c with kvNodeList := modifyNode id f c.kvNodeList } := by
  refine ⟨?_, pairwise_modifyNode h.apart hf⟩
  intro node hnode
  rcases mem_modifyNode hnode with hnode | ⟨node', hnode', -, rfl⟩
  · exact h.ids node hnode
  · rw [hid]
    exact h.ids node' hnode'

/-- Every call keeps the nodes apart. -/
theorem Ordered.step (h : c.Ordered) {l : ClusterCall} (hl : c.ServesApart l) :
    (c.step l).Ordered := by
  cases l with
  | addKvNode ip port =>
      constructor
      · intro node hnode
        rcases List.mem_append.mp hnode with hnode | hnode
        · exact (h.ids node hnode).trans (lt_add_one _)
        · rw [List.mem_singleton.mp hnode]
          exact lt_add_one _
      · refine List.pairwise_append.mpr ⟨h.apart, List.pairwise_singleton _ _, ?_⟩
        intro node hnode node' hnode'
        rw [List.mem_singleton.mp hnode']
        refine ⟨(h.ids node hnode).ne, ?_⟩
        intro _ hserving
        have hinit : Node.INIT ≠ Node.SERVING := by decide
        exact absurd hserving hinit
  | delKvNode id =>
      constructor
      · exact fun node hnode => h.ids node (List.mem_of_mem_eraseP hnode)
      · exact h.apart.sublist List.eraseP_sublist
  | setKvRange id range =>
      show (c.setKvRange id range).Ordered
      rw [setKvRange]
      split
      · exact h
      · rename_i htaken
        rw [Bool.not_eq_true] at htaken
        refine h.modify id (fun node => { node with range := range }) (fun node => rfl) ?_
        intro node _ hid node' hnode' hid'
        refine ⟨by rw [show node.id = id from hid]; exact hid'.symm, ?_⟩
        intro _ hserving
        exact not_overlapped_of_rangeTaken htaken hnode' hid' hserving
  | setKvStatus id status =>
      refine h.modify id (fun node => { node with status := status }) (fun node => rfl) ?_
      intro node hnode hid node' hnode' hid'
      refine ⟨by rw [show node.id = id from hid]; exact hid'.symm, ?_⟩
      intro hserves hserving
      exact not_overlapped_of_rangeTaken (hl hserves node hnode hid) hnode' hid' hserving

/-- **Serving ranges never overlap.**  In every run in which a node starts to serve only when its
range overlaps with that of no serving node, no key lies in the ranges of two serving nodes. -/
theorem serving_ranges_disjoint (ls : List ClusterCall) (hls : Guarded step ServesApart new ls) :
    (ls.foldl step new).kvNodeList.Pairwise fun a b =>
      a.status = Node.SERVING → b.status = Node.SERVING →
        ∀ key, ¬ (a.range.Contains key ∧ b.range.Contains key) := by
  have h : (ls.foldl step new).Ordered := by
    refine hls.invariant (I := Ordered) (fun c l h hl => h.step hl) ⟨?_, List.Pairwise.nil⟩
    exact fun node hnode => by cases hnode
  refine h.apart.imp ?_
  intro a b hab ha hb key
  exact KeyRange.not_contains_both (hab.2 ha hb) key

/-- Two nodes that share the keys at `m`. -/
theorem serving_ranges_disjoint_sample :
    let ls : List ClusterCall := [.addKvNode (ascii "10.0.0.1") 8888, .setKvRange 1 ⟨[], ascii "m"⟩,
      .setKvStatus 1 Node.SERVING, .addKvNode (ascii "10.0.0.2") 8888,
      .setKvRange 2 ⟨ascii "m", []⟩, .setKvStatus 2 Node.SERVING]
    (ls.foldl step new).kvNodeList.Pairwise fun a b =>
      a.status = Node.SERVING → b.status = Node.SERVING →
        ∀ key, ¬ (a.range.Contains key ∧ b.range.Contains key) := by
  intro ls
  exact serving_ranges_disjoint ls (by decide +kernel)

/-- **Serving ranges overlap.**  Two new nodes are set to serving; both have the default range, which
is unbounded, and so both serve the key `a`. -/
theorem serving_ranges_overlap :
    let ls : List ClusterCall := [.addKvNode (ascii "10.0.0.1") 8888,
      .addKvNode (ascii "10.0.0.2") 8888, .setKvStatus 1 Node.SERVING, .setKvStatus 2 Node.SERVING]
    ¬ (ls.foldl step new).kvNodeList.Pairwise fun a b =>
      a.status = Node.SERVING → b.status = Node.SERVING →
        ∀ key, ¬ (a.range.Contains key ∧ b.range.Contains key) := by
  intro ls h
  have hpair := (List.pairwise_cons.mp h).1 ⟨2, Node.SERVING, ⟨[], []⟩, ascii "10.0.0.2", 8888⟩
    List.mem_cons_self
  exact hpair rfl rfl (ascii "a") ⟨⟨Or.inl rfl, Or.inl rfl⟩, ⟨Or.inl rfl, Or.inl rfl⟩⟩

end Cluster

end Ssdb

import TFCommon.Partition.ConsistentHash

/-! The ring of a client is that of the nodes it knows of, whatever its history was, and so clients that know of the same
nodes agree on the owner of every partition. -/
namespace TFCommon.Partition

open HashRing

namespace ConsistentHash

variable {digest : Digest} {h : ConsistentHash}

structure Sound (digest : Digest) (h : ConsistentHash) : Prop where
  once : h.nodes.Nodup
  counted : h.index = h.nodes.length
  apart : Apart (nodeKeys digest) h.nodes
  sorted : h.keys.Pairwise (· ≤ ·)
  holds : Holds (nodeKeys digest) h.nodes h.keys (h.keyNode.lookup ·)

theorem sound_empty : Sound digest {} where
  once := .nil
  counted := rfl
  apart := .nil
  sorted := .nil
  holds := .empty _

/-! ### Adding nodes -/

theorem placeAll_spec (node : Node) (keys : List Nat) (h : ConsistentHash) :
    (keys.foldl (place node) h).nodes = h.nodes ∧ (keys.foldl (place node) h).keys = h.keys ++ keys ∧
      ∀ k, (keys.foldl (place node) h).keyNode.lookup k = if k ∈ keys then some node else h.keyNode.lookup k := by
  induction keys generalizing h with
  | nil => exact ⟨rfl, (List.append_nil _).symm, fun k => rfl⟩
  | cons key keys ih =>
    obtain ⟨nodes, placed, owners⟩ := ih (h.place node key)
    refine ⟨nodes, ?_, fun k => ?_⟩
    · exact placed.trans (List.append_assoc _ _ _)
    · refine (owners k).trans ?_
      by_cases later : k ∈ keys
      · simp [later]
      · by_cases here : k = key
        · subst here
          simp [place]
        · simp [here, place, AList.lookup_insert_ne here]

theorem generateRing_spec (fresh : List Node) (old : List Node) (h : ConsistentHash)
    (holds : Holds (nodeKeys digest) old h.keys (h.keyNode.lookup ·)) (apart : Apart (nodeKeys digest) (old ++ fresh)) :
    (fresh.foldl (fun h node => (nodeKeys digest node).foldl (place node) h) h).nodes = h.nodes ∧
      Holds (nodeKeys digest) (old ++ fresh)
        (fresh.foldl (fun h node => (nodeKeys digest node).foldl (place node) h) h).keys
        ((fresh.foldl (fun h node => (nodeKeys digest node).foldl (place node) h) h).keyNode.lookup ·) := by
  induction fresh generalizing old h with
  | nil =>
    rw [List.append_nil]
    exact ⟨rfl, holds⟩
  | cons node fresh ih =>
    obtain ⟨nodes, placed, owners⟩ := placeAll_spec node (nodeKeys digest node) h
    rw [List.append_cons] at apart ⊢
    have added := holds.add apart.of_append.1 owners
    rw [← placed] at added
    obtain ⟨same, all⟩ := ih (old ++ [node]) _ added apart
    rw [List.foldl_cons]
    exact ⟨same.trans nodes, all⟩

theorem Sound.addNodes (sound : h.Sound digest) {fresh : List Node} (once : (h.nodes ++ fresh).Nodup)
    (apart : Apart (nodeKeys digest) (h.nodes ++ fresh)) :
    (h.addNodes digest fresh).Sound digest ∧ (h.addNodes digest fresh).nodes = h.nodes ++ fresh := by
  have start : (h.nodes ++ fresh).drop h.index = fresh := by rw [sound.counted, List.drop_left]
  obtain ⟨nodes, all⟩ := generateRing_spec fresh h.nodes { h with nodes := h.nodes ++ fresh } sound.holds apart
  unfold ConsistentHash.addNodes generateRing
  rw [start]
  refine ⟨⟨?_, rfl, ?_, List.pairwise_insertionSort _ _, ?_⟩, nodes⟩
  · exact nodes ▸ once
  · exact nodes ▸ apart
  · exact nodes ▸ all.perm (List.perm_insertionSort _ _)

/-! ### Deleting nodes -/

theorem unplaceAll_spec (keys : List Nat) (h : ConsistentHash) (rest : List Nat) (left : h.keys.Perm (keys ++ rest))
    (once : (keys ++ rest).Nodup) (known : ∀ k ∈ keys, k ∈ h.keyNode) :
    ∃ next, keys.foldlM unplace h = .ok next ∧ next.nodes = h.nodes ∧ next.index = h.index ∧
      next.keys.Sublist h.keys ∧ next.keys.Perm rest ∧
      ∀ k, next.keyNode.lookup k = if k ∈ keys then none else h.keyNode.lookup k := by
  induction keys generalizing h with
  | nil => exact ⟨h, rfl, rfl, rfl, .refl _, left, fun k => rfl⟩
  | cons key keys ih =>
    have inside : key ∈ h.keys := left.mem_iff.mpr List.mem_cons_self
    obtain ⟨notLater, once⟩ := List.nodup_cons.mp once
    have smaller : (h.keys.erase key).Perm (keys ++ rest) := by
      have erased := left.erase key
      rwa [List.cons_append, List.erase_cons_head] at erased
    obtain ⟨next, ran, nodes, index, sub, perm, owners⟩ :=
      ih { h with keys := h.keys.erase key, keyNode := h.keyNode.erase key } smaller once fun k later =>
        AList.mem_erase.mpr ⟨fun same => notLater (same ▸ List.mem_append_left _ later), known k (List.mem_cons_of_mem _ later)⟩
    refine ⟨next, ?_, nodes, index, sub.trans List.erase_sublist, perm, fun k => ?_⟩
    · rw [List.foldlM_cons, unplace, if_pos inside, if_pos (known key List.mem_cons_self)]
      exact ran
    · rw [owners k]
      by_cases later : k ∈ keys
      · simp [later]
      · by_cases here : k = key
        · subst here
          simp
        · simp [here, AList.lookup_erase_ne here]

theorem Sound.delNode (sound : h.Sound digest) {node : Node} (inside : node ∈ h.nodes) :
    ∃ next, h.delNode digest node = .ok next ∧ next.Sound digest ∧ next.nodes = h.nodes.erase node := by
  have whole : h.keys.Perm (nodeKeys digest node ++ (h.nodes.erase node).flatMap (nodeKeys digest)) :=
    sound.holds.placed.trans ((List.perm_cons_erase inside).flatMap_right _)
  have once : (nodeKeys digest node ++ (h.nodes.erase node).flatMap (nodeKeys digest)).Nodup :=
    ((List.perm_cons_erase inside).flatMap_right (nodeKeys digest)).nodup sound.apart
  obtain ⟨next, ran, nodes, index, sub, perm, owners⟩ := unplaceAll_spec _ h _ whole once fun k here => by
    rw [← AList.lookup_isSome, (sound.holds.owns k node).mpr ⟨inside, here⟩]
    rfl
  refine ⟨{ next with index := next.index - 1, nodes := next.nodes.erase node }, ?_, ?_, by rw [nodes]⟩
  · rw [ConsistentHash.delNode, if_pos inside, ran]
    rfl
  · have smaller : Apart (nodeKeys digest) (h.nodes.erase node) := by
      have front : Apart (nodeKeys digest) (h.nodes.erase node ++ [node]) :=
        sound.apart.perm ((List.perm_cons_erase inside).trans (List.perm_append_singleton _ _).symm)
      exact front.of_append.1
    refine ⟨?_, ?_, ?_, sound.sorted.sublist sub, ?_⟩
    · exact nodes ▸ sound.once.erase node
    · rw [index, nodes, sound.counted, List.length_erase_of_mem inside]
    · exact nodes ▸ smaller
    · have removed := sound.holds.remove sound.once inside sound.apart whole owners
      rw [nodes]
      exact removed.perm perm

theorem Sound.delNodes (gone : List Node) (h : ConsistentHash) (sound : h.Sound digest) (once : gone.Nodup)
    (inside : ∀ node ∈ gone, node ∈ h.nodes) :
    ∃ next, h.delNodes digest gone = .ok next ∧ next.Sound digest ∧ ∀ node, node ∈ next.nodes ↔ node ∈ h.nodes ∧ node ∉ gone := by
  induction gone generalizing h with
  | nil => exact ⟨h, rfl, sound, fun node => by simp⟩
  | cons node gone ih =>
    obtain ⟨notLater, once⟩ := List.nodup_cons.mp once
    obtain ⟨middle, first, kept, nodes⟩ := sound.delNode (inside node List.mem_cons_self)
    obtain ⟨next, ran, final, left⟩ := ih middle kept once fun other later => by
      rw [nodes, sound.once.mem_erase_iff]
      exact ⟨fun same => notLater (same ▸ later), inside other (List.mem_cons_of_mem _ later)⟩
    refine ⟨next, ?_, final, fun other => ?_⟩
    · unfold ConsistentHash.delNodes at ran ⊢
      rw [List.foldlM_cons, first]
      exact ran
    · rw [left, nodes, sound.once.mem_erase_iff, List.mem_cons, not_or]
      exact ⟨fun ⟨⟨a, b⟩, c⟩ => ⟨b, a, c⟩, fun ⟨b, a, c⟩ => ⟨⟨a, b⟩, c⟩⟩

/-! ### Looking up -/

def ownerOf (digest : Digest) (h : ConsistentHash) (key : List Char) : Option Node :=
  let pos := bisect h.keys (genKey digest key)
  h.keys[if pos = h.keys.length then 0 else pos]? >>= (h.keyNode.lookup ·)

theorem bisect_le (keys : List Nat) (key : Nat) : bisect keys key ≤ keys.length := (List.takeWhile_sublist _).length_le

theorem Sound.getNode (sound : h.Sound digest) (inhabited : h.nodes ≠ []) (key : List Char) :
    ∃ owner ∈ h.nodes, h.ownerOf digest key = some owner ∧ h.getNode digest key = .ok (some owner) := by
  obtain ⟨node, rest, split⟩ := List.exists_cons_of_ne_nil inhabited
  have positive : 0 < h.keys.length := by
    rw [sound.holds.placed.length_eq, split]
    exact Nat.succ_pos _
  -- the position is that of a key, which has an owner
  have inside : (if bisect h.keys (genKey digest key) = h.keys.length then 0 else bisect h.keys (genKey digest key)) <
      h.keys.length := by
    split
    · exact positive
    · exact Nat.lt_of_le_of_ne (bisect_le _ _) ‹_›
  obtain ⟨owner, member, owned⟩ := sound.holds.owned (List.getElem_mem inside)
  have found : h.ownerOf digest key = some owner := by
    simp only [ownerOf, List.getElem?_eq_getElem inside]
    exact owned
  refine ⟨owner, member, found, ?_⟩
  have occupied : h.keyNode.entries ≠ [] := by
    intro empty
    have missing : h.keyNode = ∅ := AList.ext empty
    rw [missing] at owned
    cases owned
  unfold ownerOf at found
  simp only [ConsistentHash.getNode, getNodePos, if_neg occupied, found]

end ConsistentHash

namespace Client
open ConsistentHash

variable {digest : Digest} {maxPartition : Nat} {c : Client}

def ownedBy (digest : Digest) (h : ConsistentHash) (name : Node) (n : Nat) : List Nat :=
  (List.range n).filter fun part => h.ownerOf digest (str part) = some name

variable {h : ConsistentHash} {name : Node}

theorem ownedBy_succ {n : Nat} :
    ownedBy digest h name (n + 1) =
      if h.ownerOf digest (str n) = some name then ownedBy digest h name n ++ [n] else ownedBy digest h name n := by
  rw [ownedBy, List.range_succ, List.filter_append, List.filter_singleton]
  split
  · rename_i mine
    rw [decide_eq_true mine]
    rfl
  · rename_i notMine
    rw [decide_eq_false notMine]
    exact List.append_nil _

theorem initialTargets_spec (sound : h.Sound digest) (inhabited : h.nodes ≠ []) (name : Node) :
    initialTargets digest maxPartition name h = .ok (ownedBy digest h name maxPartition) := by
  refine foldlM_range (ownedBy digest h name) maxPartition fun part _ => ?_
  obtain ⟨owner, _, found, got⟩ := sound.getNode inhabited (str part)
  rw [got, ownedBy_succ, found]
  rfl

theorem updatedTargets_spec (sound : h.Sound digest) (inhabited : h.nodes ≠ []) (name : Node) :
    updatedTargets digest maxPartition name h = .ok (ownedBy digest h name maxPartition) := by
  refine foldlM_range (ownedBy digest h name) maxPartition fun part _ => ?_
  obtain ⟨owner, _, found, got⟩ := sound.getNode inhabited (str part)
  have fresh : part ∉ ownedBy digest h name part := fun inside => by
    simpa using List.mem_of_mem_filter inside
  rw [got, ownedBy_succ, found]
  simp only [fresh, not_false_iff, and_true]
  rfl

/-- The ring is that of the cluster, and the targets are the partitions of which the ring makes the client the owner. -/
structure Sound (digest : Digest) (maxPartition : Nat) (c : Client) : Prop where
  member : c.name ∈ c.clusterList
  once : c.clusterList.Nodup
  ring : c.conHash.Sound digest
  nodes : c.conHash.nodes.Perm c.clusterList
  targets : c.target = ownedBy digest c.conHash c.name maxPartition

theorem start_sound {list : List Node} (member : name ∈ list) (once : list.Nodup)
    (apart : Apart (nodeKeys digest) list) :
    ∃ c, start digest maxPartition name list = .ok c ∧ c.name = name ∧ c.clusterList = list ∧ c.Sound digest maxPartition := by
  obtain ⟨ring, nodes⟩ := @Sound.addNodes _ _ sound_empty list once apart
  have inhabited : (({} : ConsistentHash).addNodes digest list).nodes ≠ [] := nodes ▸ List.ne_nil_of_mem member
  refine ⟨⟨name, list, ({} : ConsistentHash).addNodes digest list, ownedBy digest _ name maxPartition⟩, ?_, rfl, rfl, member,
    once, ring, .of_eq nodes, rfl⟩
  rw [start, if_pos member]
  dsimp only
  rw [initialTargets_spec ring inhabited]
  rfl

theorem Sound.add (sound : c.Sound digest maxPartition) {u : Update} (once : u.list.Nodup)
    (fresh : u.newServers.Perm (u.list.filter (· ∉ c.clusterList)))
    (apart : Apart (nodeKeys digest) (c.clusterList ++ u.newServers)) :
    (if u.newServers = [] then c.conHash else c.conHash.addNodes digest u.newServers).Sound digest ∧
      ∀ node, node ∈ (if u.newServers = [] then c.conHash else c.conHash.addNodes digest u.newServers).nodes ↔
        node ∈ c.clusterList ∨ node ∈ u.list := by
  have new : ∀ node, node ∈ u.newServers ↔ node ∈ u.list ∧ node ∉ c.clusterList := fun node => by
    rw [fresh.mem_iff, List.mem_filter, decide_eq_true_iff]
  have either : ∀ node, node ∈ c.clusterList ∨ node ∈ u.newServers ↔ node ∈ c.clusterList ∨ node ∈ u.list := fun node => by
    rw [new]
    tauto
  split
  · rename_i nothing
    refine ⟨sound.ring, fun node => ?_⟩
    rw [sound.nodes.mem_iff, ← either, nothing]
    simp
  · have same := sound.nodes.append_right u.newServers
    have distinct : (c.clusterList ++ u.newServers).Nodup := by
      refine List.nodup_append.mpr ⟨sound.once, fresh.nodup_iff.mpr (once.filter _), ?_⟩
      rintro a old b added rfl
      exact ((new a).mp added).2 old
    obtain ⟨ring, nodes⟩ := sound.ring.addNodes (same.nodup_iff.mpr distinct) (apart.perm same.symm)
    refine ⟨ring, fun node => ?_⟩
    rw [nodes, same.mem_iff, List.mem_append, either]

theorem delete_sound {cluster : List Node} {u : Update} (ring : h.Sound digest) (once : cluster.Nodup)
    (gone : u.deletedServers.Perm (cluster.filter (· ∉ u.list))) (nodes : ∀ node, node ∈ h.nodes ↔ node ∈ cluster ∨ node ∈ u.list) :
    ∃ next, (if u.deletedServers = [] then .ok h else h.delNodes digest u.deletedServers) = .ok next ∧ next.Sound digest ∧
      ∀ node, node ∈ next.nodes ↔ node ∈ u.list := by
  have old : ∀ node, node ∈ u.deletedServers ↔ node ∈ cluster ∧ node ∉ u.list := fun node => by
    rw [gone.mem_iff, List.mem_filter, decide_eq_true_iff]
  have left : ∀ node, (node ∈ h.nodes ∧ node ∉ u.deletedServers) ↔ node ∈ u.list := fun node => by
    rw [nodes, old]
    tauto
  split
  · rename_i nothing
    refine ⟨h, rfl, ring, fun node => ?_⟩
    rw [← left, nothing]
    simp
  · obtain ⟨next, ran, kept, rest⟩ := ConsistentHash.Sound.delNodes u.deletedServers h ring
      (gone.nodup_iff.mpr (once.filter _)) fun node inside => (nodes node).mpr (.inl ((old node).mp inside).1)
    exact ⟨next, ran, kept, fun node => (rest node).trans (left node)⟩

theorem step_sound (c : Client) (u : Update) (sound : c.Sound digest maxPartition) (fine : Fine digest c u) :
    ∃ next, c.step digest maxPartition u = .ok next ∧ next.name = c.name ∧ next.Sound digest maxPartition := by
  by_cases member : c.name ∈ u.list
  · obtain ⟨once, fresh, gone, apart⟩ := fine member
    obtain ⟨added, nodes⟩ := sound.add once fresh apart
    obtain ⟨h, ran, ring, left⟩ := delete_sound added sound.once gone nodes
    have inhabited : h.nodes ≠ [] := List.ne_nil_of_mem ((left c.name).mpr member)
    have same : h.nodes.Perm u.list := (List.perm_ext_iff_of_nodup ring.once once).mpr left
    refine ⟨⟨c.name, u.list, h, ownedBy digest h c.name maxPartition⟩, ?_, rfl, member, once, ring, same, rfl⟩
    have updated : c.updateClusterList digest maxPartition u =
        .ok ⟨c.name, u.list, h, ownedBy digest h c.name maxPartition⟩ := by
      rw [updateClusterList, if_pos member, updateHash, ran]
      change (do return Client.mk c.name u.list h (← updatedTargets digest maxPartition c.name h) : Except Fault Client) = _
      rw [updatedTargets_spec ring inhabited]
      rfl
    rw [step, updated]
  · refine ⟨c, ?_, rfl, sound⟩
    rw [step, updateClusterList, if_neg member]

def history (digest : Digest) (maxPartition : Nat) (name : Node) (list : List Node) (updates : List Update) :
    Except Fault Client := do
  let c ← start digest maxPartition name list
  run (step digest maxPartition) c updates

/-- The lists of a history have no duplicates, and the hash values on the ring are distinct at every time. -/
structure FineHistory (digest : Digest) (maxPartition : Nat) (name : Node) (list : List Node) (updates : List Update) : Prop where
  member : name ∈ list
  once : list.Nodup
  apart : Apart (nodeKeys digest) list
  later : ∀ c, start digest maxPartition name list = .ok c → Throughout (step digest maxPartition) (Fine digest) c updates

theorem FineHistory.sound {list : List Node} {updates : List Update}
    (fine : FineHistory digest maxPartition name list updates) :
    ∃ c, history digest maxPartition name list updates = .ok c ∧ c.name = name ∧ c.Sound digest maxPartition := by
  obtain ⟨c, started, named, _, sound⟩ := @start_sound digest maxPartition _ _ fine.member fine.once fine.apart
  have all : Safe (step digest maxPartition) (fun c => c.name = name ∧ c.Sound digest maxPartition) (fun _ => True) c updates :=
    safe_of_throughout (fun _ => id) (fun c u sound fine => by
      obtain ⟨next, stepped, named, kept⟩ := step_sound c u sound.2 fine
      rw [stepped]
      exact ⟨named.trans sound.1, kept⟩) updates c ⟨named, sound⟩ (fine.later c started)
  have safe := all updates [] (List.append_nil _).symm
  cases ran : run (step digest maxPartition) c updates with
  | error e =>
    rw [ran] at safe
    exact absurd trivial safe
  | ok final =>
    rw [ran] at safe
    refine ⟨final, ?_, safe⟩
    rw [history, started]
    exact ran

end Client

end TFCommon.Partition

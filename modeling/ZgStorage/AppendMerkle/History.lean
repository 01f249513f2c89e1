import ZgStorage.AppendMerkle.Completeness

/-!
# Committed versions

What a run of `new`, `append`, `append_list` and `commit` stands for is a
list of leaves and, for each committed version, the leaves it had when it was
committed (`TreeSpec`), always a prefix of the current ones. The tree
implements it (`Implements`): its layers are the batch tree over the leaves,
and `delta_nodes_map` holds, for each version, the right-most node of every
layer of the batch tree over that version's leaves (`rightMost`), which is
what `commit` records.

`at_version` reads the current layers through the right-most nodes of a
version. Left of the right-most node of a layer, a node of the version heads
a full subtree, and appends do not change it; so the history tree shows the
batch tree over the version's leaves, and every proof of it is complete.

* `commit_batch`: what `commit` records for a batch tree;
* `historyTree_represents`: a version read through the current layers;
* `Implements.runOps`: every run of operations keeps the tree an
  implementation of its abstract tree;
* `new_runOps_complete`: every proof of the tree, and of each committed
  version, is generated and validates.
-/

namespace ZgStorage

open AppendMerkleTree (batchLevel batchLayers)

/-- The leaves of a tree and, for each committed version, the leaves it had
then: a prefix of the current ones. -/
structure TreeSpec (E : Type) where
  leaves : List E
  versions : Nat → Option (List E)
  prefix_of_version : ∀ v Lv, versions v = some Lv → Lv <+: leaves

namespace TreeSpec

variable {E : Type}

/-- The tree over `leaves`, without versions. -/
def init (leaves : List E) : TreeSpec E := ⟨leaves, fun _ => none, by simp⟩

/-- Append leaves: the versions keep theirs. -/
def append (S : TreeSpec E) (xs : List E) : TreeSpec E :=
  ⟨S.leaves ++ xs, S.versions,
    fun v Lv h => (S.prefix_of_version v Lv h).trans (List.prefix_append _ _)⟩

/-- Commit the current leaves as version `txSeq`, replacing an earlier
version of that number. -/
def commit (S : TreeSpec E) : Option Nat → TreeSpec E
  | none => S
  | some txSeq => ⟨S.leaves, Function.update S.versions txSeq (some S.leaves), by
      intro v Lv h
      by_cases hv : v = txSeq
      · subst hv
        rw [Function.update_self, Option.some.injEq] at h
        exact h ▸ List.prefix_refl _
      · rw [Function.update_of_ne hv] at h
        exact S.prefix_of_version v Lv h⟩

/-- `new` over `leaves`, committed as version `startTxSeq`. -/
def new (leaves : List E) (startTxSeq : Option Nat) : TreeSpec E := (init leaves).commit startTxSeq

@[simp] theorem leaves_commit (S : TreeSpec E) (txSeq : Option Nat) :
    (S.commit txSeq).leaves = S.leaves := by
  cases txSeq <;> rfl

end TreeSpec

/-- An operation on a tree after `new`: `append` or `append_list`, or
`commit`. -/
inductive TreeOp (E : Type) where
  | write (op : AppendOp E)
  | commit (txSeq : Option Nat)

namespace TreeOp

variable {E : Type}

/-- The leaves an operation appends. -/
def leaves : TreeOp E → List E
  | write op => op.leaves
  | commit _ => []

/-- Run one operation on a tree. -/
def run [DecidableEq E] [HashElement E] (A : Algorithm E) (t : AppendMerkleTree E) :
    TreeOp E → Except Error (AppendMerkleTree E)
  | write op => op.run A t
  | commit txSeq => t.commit txSeq

/-- What one operation does to the abstract tree. -/
def spec (S : TreeSpec E) : TreeOp E → TreeSpec E
  | write op => S.append op.leaves
  | commit txSeq => S.commit txSeq

@[simp] theorem leaves_spec (S : TreeSpec E) (op : TreeOp E) :
    (op.spec S).leaves = S.leaves ++ op.leaves := by
  cases op with
  | write op => rfl
  | commit txSeq => simp [spec, leaves]

end TreeOp

/-- Run operations on the abstract tree. -/
def TreeSpec.runOps {E : Type} (S : TreeSpec E) (ops : List (TreeOp E)) : TreeSpec E :=
  ops.foldl TreeOp.spec S

@[simp] theorem TreeSpec.leaves_runOps {E : Type} :
    ∀ (S : TreeSpec E) (ops : List (TreeOp E)),
      (S.runOps ops).leaves = S.leaves ++ ops.flatMap TreeOp.leaves
  | S, [] => by simp [runOps]
  | S, op :: ops => by
    rw [runOps, List.foldl_cons, ← runOps, leaves_runOps (op.spec S) ops, TreeOp.leaves_spec,
      List.flatMap_cons, List.append_assoc]

namespace AppendMerkleTree

variable {E : Type} [HashElement E] (A : Algorithm E) (lh : Nat)

/-- The right-most node of each layer of the batch tree over `xs`, with its
position; no node for no leaves. -/
def rightMost (xs : List E) : DeltaNodes E :=
  if xs = [] then ⟨[]⟩
  else ⟨(batchLayers A lh xs).map fun l => (l.length - 1, l.getLastD HashElement.null)⟩

section RightMost

variable {A lh} {xs : List E}

theorem height_rightMost (hxs : xs ≠ []) : (rightMost A lh xs).height = Merkle.depth xs.length := by
  simp [rightMost, hxs, DeltaNodes.height]

theorem getElem?_rightMost (hxs : xs ≠ []) {k : Nat} (hk : k < Merkle.depth xs.length) :
    (rightMost A lh xs).rightMostNodes[k]? =
      some ((batchLevel A lh xs k).length - 1, (batchLevel A lh xs k).getLastD HashElement.null) := by
  simp [rightMost, hxs, getElem?_batchLayers A lh xs hk]

/-- The last node of a layer. -/
theorem getLastD_batchLevel (xs : List E) (k : Nat) {p : Nat}
    (hp : p + 1 = (batchLevel A lh xs k).length) :
    (batchLevel A lh xs k).getLastD HashElement.null = (batchLevel A lh xs k)[p] := by
  rw [List.getLastD_eq_getLast?, List.getLast?_eq_getElem?,
    show (batchLevel A lh xs k).length - 1 = p by omega, List.getElem?_eq_getElem (by omega),
    Option.getD_some]

end RightMost

/-- The tree `t` implements the abstract tree `S`: its layers are the batch
tree over `S`'s leaves, and it records for each version of `S` the
right-most nodes of the batch tree over that version's leaves. -/
structure Implements (t : AppendMerkleTree E) (S : TreeSpec E) : Prop where
  leafHeight_eq : t.leafHeight = lh
  layers_eq : t.nodeManager.layers = batchLayers A lh S.leaves
  versions_eq : ∀ v, t.deltaNodesMap.lookup v = (S.versions v).map (rightMost A lh)

theorem Implements.eq_withLayers {A lh} {t : AppendMerkleTree E} {S : TreeSpec E}
    (h : Implements A lh t S) : t = t.withLayers (batchLayers A t.leafHeight S.leaves) := by
  rw [h.leafHeight_eq, ← h.layers_eq, withLayers_layers]

variable [DecidableEq E]

/-- Run operations in order, up to the first error. -/
def runOps (t : AppendMerkleTree E) (ops : List (TreeOp E)) : Except Error (AppendMerkleTree E) :=
  ops.foldlM (fun t op => op.run A t) t

/-- `commit` of the batch tree over `xs` records its right-most nodes as
the version `txSeq`, and changes nothing else but the map of roots. -/
theorem commit_batch (t : AppendMerkleTree E) (xs : List E) (txSeq : Nat) :
    ∃ roots, (t.withLayers (batchLayers A t.leafHeight xs)).commit (some txSeq) =
      .ok { t.withLayers (batchLayers A t.leafHeight xs) with
        deltaNodesMap := mapInsert t.deltaNodesMap txSeq (rightMost A t.leafHeight xs),
        rootToTxSeqMap := roots } := by
  have h0 : (batchLayers A t.leafHeight xs)[0]? = some xs :=
    getElem?_batchLayers A _ xs (Merkle.one_le_depth _)
  by_cases hxs : xs = []
  · -- no leaves: the version is recorded without nodes
    subst hxs
    exact ⟨t.rootToTxSeqMap, by simp [commit, leaves, layerLen_withLayers h0, rightMost]⟩
  · obtain ⟨root, hroot, -⟩ := root_batchLayers A t.leafHeight t hxs
    refine ⟨mapInsert t.rootToTxSeqMap root txSeq, ?_⟩
    -- every layer is non-empty, and its last node is recorded
    have hstep : ∀ k ∈ List.range (t.withLayers (batchLayers A t.leafHeight xs)).height,
        (t.withLayers (batchLayers A t.leafHeight xs)).rightMostNode k = Except.ok ((batchLevel A t.leafHeight xs k).length - 1,
          (batchLevel A t.leafHeight xs k).getLastD HashElement.null) := by
      intro k hk
      have hkd : k < Merkle.depth xs.length := by simpa using hk
      have hpos : 0 < (batchLevel A t.leafHeight xs k).length :=
        Merkle.levels_length_pos A.parent (fun k r => A.parentSingle r (k + t.leafHeight)) hxs k
      have hlayer := getElem?_batchLayers A t.leafHeight xs hkd
      rw [getLastD_batchLevel xs k (Nat.sub_add_cancel hpos)]
      simp [rightMostNode, layerLen_withLayers hlayer,
        node_withLayers hlayer (Nat.sub_lt hpos Nat.one_pos)]
    have hlen : xs.length ≠ 0 := by simpa using hxs
    simp only [commit, leaves, layerLen_withLayers h0, Except.ok_bind, if_neg hlen,
      Except.mapM_eq_ok hstep, hroot]
    simp [rightMost, hxs, batchLayers, Merkle.tower, batchLevel, withLayers, height,
      NodeManager.numLayers, Function.comp_def]

/-- A version with leaves `Lv`, read through the current layers of the
batch tree over known leaves `L` that extend `Lv`, shows the batch tree over
`Lv`: the right-most node of each layer comes from the version, and the
nodes left of it from the current layers, where later appends left them. -/
theorem historyTree_represents (hk : A.KeepsKnown) {Lv L : List E} (hpre : Lv <+: L)
    (hne : Lv ≠ []) (hx : ∀ x ∈ L, isNull x = false) :
    (HistoryTree.mk ⟨batchLayers A lh L⟩ (rightMost A lh Lv) lh).toRead.Represents A lh Lv where
  height_eq := height_rightMost hne
  layerLen_eq k hkd := by
    have hkd : k < Merkle.depth Lv.length := by rwa [HistoryTree.toRead, height_rightMost hne] at hkd
    have hpos := Merkle.levels_length_pos A.parent (fun k r => A.parentSingle r (k + lh)) hne k
    simp only [HistoryTree.toRead, DeltaNodes.layerLen, index_eq_ok (getElem?_rightMost hne hkd),
      Except.ok_bind, Except.pure_eq_ok]
    congr 1
    simp only [batchLevel] at hpos ⊢
    omega
  node_eq k hkd j hj := by
    obtain ⟨ys, rfl⟩ := hpre
    have hkv : k < Merkle.depth Lv.length := by rwa [HistoryTree.toRead, height_rightMost hne] at hkd
    simp only [HistoryTree.toRead, HistoryTree.node, DeltaNodes.get, getElem?_rightMost hne hkv]
    rw [if_neg (by omega)]
    by_cases hlast : j = (batchLevel A lh Lv k).length - 1
    · -- the right-most node of the layer, recorded by the version
      have hknown := AppendMerkleTree.batchLevel_known A lh hk
        (fun x h => hx x (List.mem_append_left ys h)) k _ (List.getElem_mem hj)
      rw [getLastD_batchLevel Lv k (show j + 1 = (batchLevel A lh Lv k).length by omega)]
      subst hlast
      simp [hknown]
    · -- a node left of it heads a full subtree, which later appends kept
      have hbounds := AppendMerkleTree.length_batchLevel_bounds A lh Lv k
      have hcur : (batchLevel A lh (Lv ++ ys) k)[j]? = some (batchLevel A lh Lv k)[j] := by
        rw [AppendMerkleTree.getElem?_batchLevel_append_of_lt A lh Lv ys (by omega),
          List.getElem?_eq_getElem hj]
      have hkL : k < Merkle.depth (Lv ++ ys).length :=
        Nat.lt_of_lt_of_le hkv (Merkle.depth_mono (by simp))
      simp [hlast, NodeManager.getNode, getElem?_batchLayers A lh _ hkL, hcur, expectSome]
  paddingNode_eq _ := rfl

namespace Implements

variable {A lh} {t : AppendMerkleTree E} {S : TreeSpec E}

/-- `commit` keeps the tree an implementation. -/
theorem commit (h : Implements A lh t S) (txSeq : Option Nat) :
    ∃ t', t.commit txSeq = .ok t' ∧ Implements A lh t' (S.commit txSeq) := by
  cases txSeq with
  | none => exact ⟨t, rfl, h⟩
  | some v =>
    obtain ⟨roots, hcommit⟩ := commit_batch A t S.leaves v
    rw [← h.eq_withLayers] at hcommit
    refine ⟨_, hcommit, h.leafHeight_eq, h.layers_eq, fun v' => ?_⟩
    rw [lookup_mapInsert, h.versions_eq, h.leafHeight_eq]
    by_cases hv : v' = v
    · subst hv
      simp [TreeSpec.commit]
    · simp [TreeSpec.commit, hv]

/-- One operation on known leaves keeps the tree an implementation. -/
theorem step (hk : A.KeepsKnown) (h : Implements A lh t S) (op : TreeOp E)
    (hx : ∀ x ∈ S.leaves ++ op.leaves, isNull x = false) :
    ∃ t', op.run A t = .ok t' ∧ Implements A lh t' (op.spec S) := by
  cases op with
  | write op =>
    have hrun := appendOp_batch A hk t (L := S.leaves) op (fun x hx' => hx x (by simp [hx']))
      (fun x hx' => hx x (by simp [TreeOp.leaves, hx']))
    rw [← h.eq_withLayers] at hrun
    refine ⟨_, hrun, by simp [h.leafHeight_eq], ?_, h.versions_eq⟩
    simp [h.leafHeight_eq, TreeOp.spec, TreeSpec.append]
  | commit txSeq => exact h.commit txSeq

/-- A run of operations on known leaves keeps the tree an implementation:
every step succeeds. -/
theorem runOps (hk : A.KeepsKnown) :
    ∀ (ops : List (TreeOp E)) {t : AppendMerkleTree E} {S : TreeSpec E}, Implements A lh t S →
      (∀ x ∈ S.leaves ++ ops.flatMap TreeOp.leaves, isNull x = false) →
      ∃ t', AppendMerkleTree.runOps A t ops = .ok t' ∧ Implements A lh t' (S.runOps ops)
  | [], t, S, h, _ => ⟨t, rfl, h⟩
  | op :: ops, t, S, h, hx => by
    obtain ⟨t₁, hrun, h₁⟩ := h.step hk op fun x hx' => hx x (by simp at hx' ⊢; tauto)
    obtain ⟨t₂, hrun₂, h₂⟩ := runOps hk ops h₁ fun x hx' => hx x (by simp at hx' ⊢; tauto)
    refine ⟨t₂, ?_, h₂⟩
    rw [AppendMerkleTree.runOps, List.foldlM_cons, hrun, Except.ok_bind]
    exact hrun₂

/-- `at_version` of a version of the abstract tree with leaves: a history
tree that shows the batch tree over the version's leaves. -/
theorem atVersion (hk : A.KeepsKnown) (h : Implements A lh t S)
    (hx : ∀ x ∈ S.leaves, isNull x = false) {v : Nat} {Lv : List E}
    (hv : S.versions v = some Lv) (hne : Lv ≠ []) :
    ∃ ht, t.atVersion v = .ok ht ∧ ht.toRead.Represents A lh Lv := by
  have hnm : t.nodeManager = ⟨batchLayers A lh S.leaves⟩ := by rw [← h.layers_eq]
  have hheight : (rightMost A lh Lv).height ≠ 0 := by
    rw [height_rightMost hne]
    exact Nat.one_le_iff_ne_zero.mp (Merkle.one_le_depth _)
  refine ⟨_, ?_, historyTree_represents A lh hk (S.prefix_of_version v Lv hv) hne hx⟩
  simp [AppendMerkleTree.atVersion, h.versions_eq, hv, hheight, hnm, h.leafHeight_eq]

end Implements

/-- `new` over known leaves implements the abstract tree of `new`. -/
theorem new_implements (hk : A.KeepsKnown) (b₀ : List E) (startTxSeq : Option Nat)
    (hx : ∀ x ∈ b₀, isNull x = false) :
    ∃ t, new A b₀ lh startTxSeq = .ok t ∧ Implements A lh t (TreeSpec.new b₀ startTxSeq) := by
  have h : Implements A lh ((empty none lh).withLayers (batchLayers A lh b₀)) (TreeSpec.init b₀) :=
    ⟨rfl, rfl, fun _ => rfl⟩
  rw [new_commit A hk b₀ hx lh startTxSeq]
  exact h.commit startTxSeq

/-- Every proof of a tree built by `new` over known leaves and changed by
any run of `append`, `append_list` and `commit` of known leaves is generated
and validates, for every leaf and every range, and names the root of the
leaves; and so does every proof of each committed version with leaves, read
by `at_version` after the later operations, with the leaves and the root
that version had. -/
theorem new_runOps_complete (hk : A.KeepsKnown) (b₀ : List E) (startTxSeq : Option Nat)
    (ops : List (TreeOp E)) (hknown : ∀ x ∈ b₀ ++ ops.flatMap TreeOp.leaves, isNull x = false) :
    ∃ t, (new A b₀ lh startTxSeq >>= fun t => runOps A t ops) = .ok t ∧
      t.toRead.ProofsComplete A (b₀ ++ ops.flatMap TreeOp.leaves) ∧
      (b₀ ++ ops.flatMap TreeOp.leaves ≠ [] → ∃ r, t.root = .ok r ∧
        Merkle.root A.parent (fun k r => A.parentSingle r (k + lh))
          (b₀ ++ ops.flatMap TreeOp.leaves) = some r) ∧
      ∀ v Lv, ((TreeSpec.new b₀ startTxSeq).runOps ops).versions v = some Lv → Lv ≠ [] →
        ∃ h, t.atVersion v = .ok h ∧ h.toRead.ProofsComplete A Lv ∧
          ∃ r, h.toRead.root = .ok r ∧
            Merkle.root A.parent (fun k r => A.parentSingle r (k + lh)) Lv = some r := by
  obtain ⟨t₀, hnew, h₀⟩ := new_implements A lh hk b₀ startTxSeq fun x hx => hknown x (by simp [hx])
  obtain ⟨t, hrun, h⟩ := h₀.runOps hk ops (by simpa [TreeSpec.new, TreeSpec.init] using hknown)
  have hleaves : ((TreeSpec.new b₀ startTxSeq).runOps ops).leaves =
      b₀ ++ ops.flatMap TreeOp.leaves := by
    simp [TreeSpec.new, TreeSpec.init]
  -- the current tree shows the batch tree over all the leaves
  have hrep : t.toRead.Represents A lh (b₀ ++ ops.flatMap TreeOp.leaves) := by
    have hrep := toRead_represents A t ((TreeSpec.new b₀ startTxSeq).runOps ops).leaves
    rwa [← h.eq_withLayers, h.leafHeight_eq, hleaves] at hrep
  refine ⟨t, by rw [hnew, Except.ok_bind]; exact hrun, hrep.proofsComplete hk hknown,
    fun hne => hrep.root_merkle hne, fun v Lv hv hne => ?_⟩
  -- a version's leaves are a prefix of the current ones, so they are known
  have hpre := ((TreeSpec.new b₀ startTxSeq).runOps ops).prefix_of_version v Lv hv
  rw [hleaves] at hpre
  have hLv : ∀ x ∈ Lv, isNull x = false := fun x hx => hknown x (hpre.subset hx)
  obtain ⟨ht, hat, hrepv⟩ := h.atVersion hk (by rwa [hleaves]) hv hne
  exact ⟨ht, hat, hrepv.proofsComplete hk hLv, hrepv.root_merkle hne⟩

/-- `new_runOps_complete` for `Sha3Algorithm` on `OptionalHash`: one leaf
committed as version `0`, one more appended and committed as version `1`,
then two more by `append_list`. -/
theorem new_runOps_complete_optional :
    (Sha3Algorithm.optional : Algorithm OptionalHash).KeepsKnown ∧
      (∀ x ∈ [OptionalHash.some H256.zero] ++
          [TreeOp.write (AppendOp.append (.some H256.zero)), TreeOp.commit (some 1),
            TreeOp.write (AppendOp.appendList [.some H256.zero, .some H256.zero])].flatMap
            TreeOp.leaves,
        isNull (x : OptionalHash) = false) ∧
      ∃ t, (new Sha3Algorithm.optional [OptionalHash.some H256.zero] 0 (some 0) >>= fun t =>
          runOps Sha3Algorithm.optional t
            [TreeOp.write (AppendOp.append (.some H256.zero)), TreeOp.commit (some 1),
              TreeOp.write (AppendOp.appendList [.some H256.zero, .some H256.zero])]) = .ok t ∧
        t.toRead.ProofsComplete Sha3Algorithm.optional ([OptionalHash.some H256.zero] ++
          [TreeOp.write (AppendOp.append (.some H256.zero)), TreeOp.commit (some 1),
            TreeOp.write (AppendOp.appendList [.some H256.zero, .some H256.zero])].flatMap
            TreeOp.leaves) ∧
        ([OptionalHash.some H256.zero] ++
            [TreeOp.write (AppendOp.append (.some H256.zero)), TreeOp.commit (some 1),
              TreeOp.write (AppendOp.appendList [.some H256.zero, .some H256.zero])].flatMap
              TreeOp.leaves ≠ [] →
          ∃ r, t.root = .ok r ∧
            Merkle.root Sha3Algorithm.optional.parent
              (fun k r => Sha3Algorithm.optional.parentSingle r (k + 0))
              ([OptionalHash.some H256.zero] ++
                [TreeOp.write (AppendOp.append (.some H256.zero)), TreeOp.commit (some 1),
                  TreeOp.write (AppendOp.appendList [.some H256.zero, .some H256.zero])].flatMap
                  TreeOp.leaves) = some r) ∧
        ∀ v Lv, ((TreeSpec.new [OptionalHash.some H256.zero] (some 0)).runOps
            [TreeOp.write (AppendOp.append (.some H256.zero)), TreeOp.commit (some 1),
              TreeOp.write (AppendOp.appendList [.some H256.zero, .some H256.zero])]).versions v =
              some Lv → Lv ≠ [] →
          ∃ h, t.atVersion v = .ok h ∧ h.toRead.ProofsComplete Sha3Algorithm.optional Lv ∧
            ∃ r, h.toRead.root = .ok r ∧
              Merkle.root Sha3Algorithm.optional.parent
                (fun k r => Sha3Algorithm.optional.parentSingle r (k + 0)) Lv = some r :=
  have hknown : ∀ x ∈ [OptionalHash.some H256.zero] ++
      [TreeOp.write (AppendOp.append (.some H256.zero)), TreeOp.commit (some 1),
        TreeOp.write (AppendOp.appendList [.some H256.zero, .some H256.zero])].flatMap TreeOp.leaves,
      isNull (x : OptionalHash) = false := by
    simp [TreeOp.leaves, AppendOp.leaves, Sha3Algorithm.isNull_optional, OptionalHash.some]
  ⟨Sha3Algorithm.optional_keepsKnown, hknown,
    new_runOps_complete _ 0 Sha3Algorithm.optional_keepsKnown _ _ _ hknown⟩

end AppendMerkleTree

end ZgStorage

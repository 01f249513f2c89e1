import ZgStorage.AppendMerkle.Append

/-!
# Proofs of a batch tree validate

`gen_proof` and `gen_range_proof` read a tree through `MerkleTreeRead`.
When what they read is the batch tree over some known leaves
(`TreeRead.Represents`), every proof they build is accepted by
`Proof::validate` and `RangeProof::validate`. The append-only tree shows its
batch tree this way, and so does the history tree of a committed version.

The sibling that `gen_proof` records on layer `k` for node `j` is
`siblingAt`: the other node of its pair, or the padding of the layer for an
odd last node. Hashing a node with it gives its parent (`parent_siblingAt`),
so the walk of `validate_integrity` climbs the batch tree to its root.

* `TreeRead.proofPath_eq`: the siblings and turns of `gen_proof`;
* `TreeRead.genProof_validate`: every leaf has a proof, which validates;
* `TreeRead.genRangeProof_validate`: every range has a range proof, which
  validates.
-/

namespace ZgStorage

open AppendMerkleTree (batchLevel batchLayers)

variable {E : Type} [HashElement E] (A : Algorithm E) (lh : Nat)

/-- A reading interface shows the batch tree over `xs` with leaf height `lh`. -/
structure TreeRead.Represents (r : TreeRead E) (xs : List E) : Prop where
  height_eq : r.height = Merkle.depth xs.length
  layerLen_eq : ∀ k < r.height, r.layerLen k = .ok (batchLevel A lh xs k).length
  node_eq : ∀ k < r.height, ∀ j (hj : j < (batchLevel A lh xs k).length),
    r.node k j = .ok (batchLevel A lh xs k)[j]
  paddingNode_eq : ∀ k, r.paddingNode k = HashElement.endPad (k + lh)

/-- What a reader of a tree over the leaves `xs` can prove: there are
`xs.length` leaves, each has a proof that validates for it at its position
and names the root, and each range has a range proof that validates for its
leaves. -/
structure TreeRead.ProofsComplete [DecidableEq E] (r : TreeRead E) (xs : List E) : Prop where
  leaves_eq : r.leaves = .ok xs.length
  genProof_ok : ∀ i (hi : i < xs.length),
    ∃ p, r.genProof i = .ok p ∧ p.validate A xs[i] i = .ok () ∧ p.root = r.root
  genRangeProof_ok : ∀ s e, s < e → e ≤ xs.length →
    ∃ rp, r.genRangeProof s e = .ok rp ∧ rp.validate A ((xs.drop s).take (e - s)) s = .ok ()

/-- The sibling of node `j` of layer `k` in a proof: the other node of its
pair, or the padding of the layer for an odd last node. -/
def siblingAt (xs : List E) (k j : Nat) : E :=
  if j % 2 = 0 then (batchLevel A lh xs k).getD (j + 1) (HashElement.endPad (k + lh))
  else (batchLevel A lh xs k).getD (j - 1) HashElement.null

section Sibling

variable {A lh} {xs : List E} {k j : Nat}

/-- Node `j` hashed with its sibling, on the side its turn says, is its
parent. -/
theorem parent_siblingAt (hj : j < (batchLevel A lh xs k).length) :
    (batchLevel A lh xs (k + 1))[j / 2]? =
      some (if j % 2 = 0 then A.parent (batchLevel A lh xs k)[j] (siblingAt A lh xs k j)
        else A.parent (siblingAt A lh xs k j) (batchLevel A lh xs k)[j]) := by
  have hlt : j / 2 < (Merkle.up A.parent (fun r => A.parentSingle r (k + lh))
      (batchLevel A lh xs k)).length := by
    rw [Merkle.up_length]
    omega
  rw [AppendMerkleTree.batchLevel_succ, List.getElem?_eq_getElem hlt, Option.some.injEq,
    Merkle.up_getElem]
  by_cases hev : j % 2 = 0
  · have h0 : 2 * (j / 2) = j := by omega
    by_cases hnext : j + 1 < (batchLevel A lh xs k).length
    · -- a full pair: the right node is the sibling
      rw [dif_pos (by omega)]
      simp only [siblingAt, hev, ↓reduceIte, List.getD_eq_getElem?_getD,
        List.getElem?_eq_getElem hnext, Option.getD_some, List.get_eq_getElem, h0]
    · -- an odd last node: the padding of the layer is the sibling
      rw [dif_neg (by omega)]
      simp only [siblingAt, hev, ↓reduceIte, List.getD_eq_getElem?_getD,
        List.getElem?_eq_none (show (batchLevel A lh xs k).length ≤ j + 1 by omega),
        Option.getD_none, List.get_eq_getElem, h0, Algorithm.parentSingle]
  · -- a right child: the left node is the sibling
    rw [dif_pos (by omega)]
    simp only [siblingAt, hev, ↓reduceIte, List.getD_eq_getElem?_getD,
      List.getElem?_eq_getElem (show j - 1 < (batchLevel A lh xs k).length by omega),
      Option.getD_some, List.get_eq_getElem, show 2 * (j / 2) = j - 1 by omega,
      show j - 1 + 1 = j by omega]

theorem lt_length_batchLevel_succ (hj : j < (batchLevel A lh xs k).length) :
    j / 2 < (batchLevel A lh xs (k + 1)).length := by
  rw [AppendMerkleTree.batchLevel_succ, Merkle.up_length]
  omega

/-- The ancestor of node `j`, `m` layers up, is a node of that layer. -/
theorem shiftRight_lt_length (hj : j < (batchLevel A lh xs k).length) :
    ∀ m, j >>> m < (batchLevel A lh xs (k + m)).length
  | 0 => hj
  | m + 1 => by
    rw [← Nat.add_assoc, Nat.shiftRight_succ]
    exact lt_length_batchLevel_succ (shiftRight_lt_length hj m)

theorem siblingAt_known [DecidableEq E] (hk : A.KeepsKnown) (hx : ∀ x ∈ xs, isNull x = false)
    (hj : j < (batchLevel A lh xs k).length) : isNull (siblingAt A lh xs k j) = false := by
  have hknown := AppendMerkleTree.batchLevel_known A lh hk hx k
  unfold siblingAt
  split
  · rw [List.getD_eq_getElem?_getD]
    cases h : (batchLevel A lh xs k)[j + 1]? with
    | none => exact hk.endPad _
    | some y => exact hknown y (List.mem_of_getElem? h)
  · rw [List.getD_eq_getElem?_getD, List.getElem?_eq_getElem (show j - 1 < _ by omega),
      Option.getD_some]
    exact hknown _ (List.getElem_mem _)

end Sibling

/-- The siblings of a proof of node `j` of layer `k`, on `n` layers. -/
def proofSiblings (xs : List E) : Nat → Nat → Nat → List E
  | 0, _, _ => []
  | n + 1, k, j => siblingAt A lh xs k j :: proofSiblings xs n (k + 1) (j >>> 1)

/-- The turns of a proof of node `j`: `true` for a left child. -/
def proofTurns : Nat → Nat → List Bool
  | 0, _ => []
  | n + 1, j => decide (j % 2 = 0) :: proofTurns n (j >>> 1)

/-- The proof of leaf `i` on `n` layers that `gen_proof` builds: the leaf,
the siblings of its path, and the root. -/
def leafProof (xs : List E) (n i : Nat) (x root : E) : Proof E :=
  ⟨x :: proofSiblings A lh xs n 0 i ++ [root], proofTurns n i⟩

section Walk

variable {A lh} {xs : List E}

@[simp] theorem path_leafProof (n i : Nat) (x root : E) :
    (leafProof A lh xs n i x root).path = proofTurns n i := rfl

@[simp] theorem item_leafProof (n i : Nat) (x root : E) :
    (leafProof A lh xs n i x root).item = .ok x := rfl

@[simp] theorem root_leafProof (n i : Nat) (x root : E) :
    (leafProof A lh xs n i x root).root = .ok root := by
  simp only [leafProof, Proof.root, List.getLast?_concat]
  rfl

@[simp] theorem length_proofSiblings : ∀ n k j, (proofSiblings A lh xs n k j).length = n
  | 0, _, _ => rfl
  | n + 1, k, j => by simp [proofSiblings, length_proofSiblings n]

@[simp] theorem length_proofTurns : ∀ n j, (proofTurns n j).length = n
  | 0, _ => rfl
  | n + 1, j => by simp [proofTurns, length_proofTurns n]

theorem getElem?_proofSiblings : ∀ n k j m, m < n →
    (proofSiblings A lh xs n k j)[m]? = some (siblingAt A lh xs (k + m) (j >>> m))
  | n + 1, k, j, 0, _ => by simp [proofSiblings]
  | n + 1, k, j, m + 1, hm => by
    rw [proofSiblings, List.getElem?_cons_succ, getElem?_proofSiblings n (k + 1) (j >>> 1) m (by omega),
      ← Nat.shiftRight_add, Nat.add_comm 1 m, show k + 1 + m = k + (m + 1) by omega]

theorem getElem?_proofTurns : ∀ n j m, m < n →
    (proofTurns n j)[m]? = some (decide ((j >>> m) % 2 = 0))
  | n + 1, j, 0, _ => by simp [proofTurns]
  | n + 1, j, m + 1, hm => by
    rw [proofTurns, List.getElem?_cons_succ, getElem?_proofTurns n (j >>> 1) m (by omega),
      ← Nat.shiftRight_add, Nat.add_comm 1 m]

/-- The walk of `validate_integrity` along the siblings and turns of node
`j` of layer `k` climbs to its ancestor `n` layers up. -/
theorem chain_proofSiblings : ∀ n k j x, (batchLevel A lh xs k)[j]? = some x →
    ∃ y, Proof.chain A (proofTurns n j) (proofSiblings A lh xs n k j) x = .ok y ∧
      (batchLevel A lh xs (k + n))[j >>> n]? = some y
  | 0, k, j, x, hx => ⟨x, rfl, hx⟩
  | n + 1, k, j, x, hx => by
    obtain ⟨hj, rfl⟩ := List.getElem?_eq_some_iff.mp hx
    have hup := parent_siblingAt hj
    rw [← Nat.shiftRight_one] at hup
    obtain ⟨y, hy, hyv⟩ := chain_proofSiblings n (k + 1) (j >>> 1) _ hup
    refine ⟨y, ?_, ?_⟩
    · rw [← hy, proofTurns, proofSiblings, Proof.chain]
      by_cases hev : j % 2 = 0 <;> simp [hev]
    · rwa [← Nat.shiftRight_add, Nat.add_comm 1 n, show k + 1 + n = k + (n + 1) by omega] at hyv

/-- The turns of node `j` on `n` layers spell `j mod 2ⁿ` in binary. -/
theorem position_proofTurns : ∀ n j, Proof.position (proofTurns n j) = j % 2 ^ n
  | 0, j => by simp [proofTurns, Proof.position, Nat.mod_one]
  | n + 1, j => by
    rw [proofTurns, Proof.position, position_proofTurns n (j >>> 1), Nat.shiftRight_one,
      Nat.pow_succ', Nat.mod_mul]
    by_cases hev : j % 2 = 0
    · simp [hev]
    · simp [hev]
      omega

theorem proofSiblings_known [DecidableEq E] (hk : A.KeepsKnown) (hx : ∀ x ∈ xs, isNull x = false)
    {n k j : Nat} (hj : j < (batchLevel A lh xs k).length) :
    ∀ s ∈ proofSiblings A lh xs n k j, isNull s = false := by
  intro s hs
  obtain ⟨m, hm, hsm⟩ := List.getElem_of_mem hs
  have h : (proofSiblings A lh xs n k j)[m]? = some (siblingAt A lh xs (k + m) (j >>> m)) :=
    getElem?_proofSiblings n k j m (by simpa using hm)
  rw [List.getElem?_eq_getElem hm, hsm, Option.some.injEq] at h
  rw [h]
  exact siblingAt_known hk hx (shiftRight_lt_length hj m)

/-- The integrity check of a proof of node `i`: its walk climbs to the
node `n` layers up, which is its last element. -/
theorem validateIntegrity_proof [DecidableEq E] {n i : Nat} {x root : E} (hx : xs[i]? = some x)
    (hroot : (batchLevel A lh xs n)[i >>> n]? = some root) :
    Proof.validateIntegrity A (leafProof A lh xs n i x root) = .ok true := by
  obtain ⟨y, hy, hyv⟩ := chain_proofSiblings n 0 i x (show (batchLevel A lh xs 0)[i]? = some x from hx)
  rw [Nat.zero_add, hroot, Option.some.injEq] at hyv
  subst hyv
  have hsize : ¬n + 1 + 1 < 2 := by omega
  simp [leafProof, Proof.validateIntegrity, Proof.item, Proof.root, expectSome, hy, hsize,
    List.getLast?_cons, List.getLast?_append]

/-- A proof of node `i < 2ⁿ` validates for its leaf at position `i`. -/
theorem validate_proof [DecidableEq E] {n i : Nat} {x root : E} (hx : xs[i]? = some x)
    (hroot : (batchLevel A lh xs n)[i >>> n]? = some root) (hi : i < 2 ^ n) :
    Proof.validate A (leafProof A lh xs n i x root) x i = .ok () := by
  rw [Proof.validate, validateIntegrity_proof hx hroot]
  simp [leafProof, Proof.item, expectSome, position_proofTurns, Nat.mod_eq_of_lt hi]

end Walk

/-- The nodes of `l` from position `a` through position `b`. -/
def segment {α : Type} (l : List α) (a b : Nat) : List α := (l.drop a).take (b + 1 - a)

section Segment

variable {α : Type} {l : List α} {a b : Nat}

theorem length_segment (hb : b < l.length) : (segment l a b).length = b + 1 - a := by
  simp only [segment, List.length_take, List.length_drop]
  omega

theorem segment_eq_cons (hab : a ≤ b) (hb : b < l.length) :
    segment l a b = l[a] :: segment l (a + 1) b := by
  rw [segment, List.drop_eq_getElem_cons (by omega), show b + 1 - a = (b + 1 - (a + 1)) + 1 by omega,
    List.take_succ_cons, segment]

theorem segment_eq_concat (hab : a ≤ b) (hb : b < l.length) :
    segment l a b = (l.drop a).take (b - a) ++ [l[b]] := by
  rw [segment, show b + 1 - a = (b - a) + 1 by omega, List.take_add_one, List.getElem?_drop,
    show a + (b - a) = b by omega, List.getElem?_eq_getElem hb, Option.toList_some]

theorem segment_self {x : α} (h : l[a]? = some x) : segment l a a = [x] := by
  simp [segment, List.take_one, List.head?_drop, h]

end Segment

section RangeWalk

variable {A lh} {xs : List E}

omit [HashElement E] in
theorem pairParents_of_even (single : E → E) :
    ∀ ys : List E, ys.length % 2 = 0 →
      RangeProof.pairParents A ys = (Merkle.up A.parent single ys, none)
  | [], _ => rfl
  | [_], h => by simp at h
  | a :: b :: rest, h => by
    have hrest : rest.length % 2 = 0 := by simp only [List.length_cons] at h; omega
    simp only [RangeProof.pairParents, Merkle.up_cons_cons, pairParents_of_even single rest hrest]

omit [HashElement E] in
theorem pairParents_append_singleton (single : E → E) :
    ∀ ys : List E, ys.length % 2 = 0 → ∀ z,
      RangeProof.pairParents A (ys ++ [z]) = (Merkle.up A.parent single ys, some z)
  | [], _, _ => rfl
  | [_], h, _ => by simp at h
  | a :: b :: rest, h, z => by
    have hrest : rest.length % 2 = 0 := by simp only [List.length_cons] at h; omega
    simp only [List.cons_append, RangeProof.pairParents, Merkle.up_cons_cons,
      pairParents_append_singleton single rest hrest z]

/-- The layer above a segment of layer `k` from an even position to an odd
one. -/
theorem up_segment {k c d : Nat} (hc : c % 2 = 0) (hd : d % 2 = 1) (hcd : c ≤ d + 1)
    (hdl : d < (batchLevel A lh xs k).length) :
    Merkle.up A.parent (fun r => A.parentSingle r (k + lh)) (segment (batchLevel A lh xs k) c d) =
      segment (batchLevel A lh xs (k + 1)) (c / 2) (d / 2) := by
  obtain ⟨i, rfl⟩ : ∃ i, c = 2 * i := ⟨c / 2, by omega⟩
  rw [AppendMerkleTree.batchLevel_succ, segment, segment, Nat.mul_div_cancel_left i (by omega),
    Merkle.up_window _ _ _ (by omega) (by omega) (.inr (by omega))]
  congr 1
  omega

/-- The layer above the nodes of layer `k` from an even position up to an
even one, that one excluded. -/
theorem up_segment_before {k c d : Nat} (hc : c % 2 = 0) (hd : d % 2 = 0) (hcd : c ≤ d)
    (hdl : d < (batchLevel A lh xs k).length) :
    Merkle.up A.parent (fun r => A.parentSingle r (k + lh)) (((batchLevel A lh xs k).drop c).take (d - c)) =
      ((batchLevel A lh xs (k + 1)).drop (c / 2)).take (d / 2 - c / 2) := by
  obtain ⟨i, rfl⟩ : ∃ i, c = 2 * i := ⟨c / 2, by omega⟩
  rw [AppendMerkleTree.batchLevel_succ, Nat.mul_div_cancel_left i (by omega),
    Merkle.up_window _ _ _ (by omega) (by omega) (.inr hd)]
  congr 1
  omega

variable {rp : RangeProof E} {k : Nat}

/-- The second half of a pass on the nodes of layer `k` from an even
position `c` through `b`: the nodes of the layer above from `c / 2` through
`b / 2`, an odd last node hashed with its sibling from the right proof. -/
theorem pairLayer_segment {c b : Nat} (hc : c % 2 = 0) (hcb : c ≤ b + 1)
    (hb : b < (batchLevel A lh xs k).length)
    (hrp : rp.rightProof.path[k]? = some (decide (b % 2 = 0)))
    (hrs : rp.rightProof.lemma'[k + 1]? = some (siblingAt A lh xs k b)) :
    RangeProof.pairLayer A rp k (segment (batchLevel A lh xs k) c b) =
      .ok (segment (batchLevel A lh xs (k + 1)) (c / 2) (b / 2)) := by
  by_cases hbo : b % 2 = 1
  · -- the segment ends on a right child: it is made of full pairs
    have hlen : (segment (batchLevel A lh xs k) c b).length % 2 = 0 := by
      rw [length_segment hb]
      omega
    simp only [RangeProof.pairLayer, pairParents_of_even (fun r => A.parentSingle r (k + lh)) _ hlen,
      up_segment hc hbo hcb hb]
    rfl
  · -- the segment ends on a left child, whose parent takes the right proof's sibling
    have hbe : b % 2 = 0 := by omega
    have hcb' : c ≤ b := by omega
    have hP : b / 2 < (batchLevel A lh xs (k + 1)).length := lt_length_batchLevel_succ hb
    have hparent : (batchLevel A lh xs (k + 1))[b / 2] =
        A.parent (batchLevel A lh xs k)[b] (siblingAt A lh xs k b) := by
      have h := parent_siblingAt hb
      rw [if_pos hbe, List.getElem?_eq_getElem hP] at h
      exact Option.some.inj h
    have hlen : (((batchLevel A lh xs k).drop c).take (b - c)).length % 2 = 0 := by
      simp only [List.length_take, List.length_drop]
      omega
    rw [segment_eq_concat hcb' hb, segment_eq_concat (by omega) hP, hparent,
      ← up_segment_before hc hbe hcb' hb]
    simp [RangeProof.pairLayer, pairParents_append_singleton (fun r => A.parentSingle r (k + lh)) _ hlen,
      index_eq_ok hrp, index_eq_ok hrs, hbe]

/-- One pass of the loop of `RangeProof::validate` on the nodes of layer `k`
from `a` through `b`, with the turn and sibling of `a` from the left proof
and those of `b` from the right one: the nodes of the layer above from
`a / 2` through `b / 2`. -/
theorem parentLayer_segment {a b : Nat} (hab : a ≤ b) (hb : b < (batchLevel A lh xs k).length)
    (hlp : rp.leftProof.path[k]? = some (decide (a % 2 = 0)))
    (hls : rp.leftProof.lemma'[k + 1]? = some (siblingAt A lh xs k a))
    (hrp : rp.rightProof.path[k]? = some (decide (b % 2 = 0)))
    (hrs : rp.rightProof.lemma'[k + 1]? = some (siblingAt A lh xs k b)) :
    RangeProof.parentLayer A rp k (segment (batchLevel A lh xs k) a b) =
      .ok (segment (batchLevel A lh xs (k + 1)) (a / 2) (b / 2)) := by
  by_cases hae : a % 2 = 0
  · -- a left child starts the segment: only pairs
    simp [RangeProof.parentLayer, index_eq_ok hlp, hae, pairLayer_segment hae (by omega) hb hrp hrs]
  · -- a right child starts the segment: its parent takes the left proof's sibling
    have ha : a < (batchLevel A lh xs k).length := by omega
    have hP : a / 2 < (batchLevel A lh xs (k + 1)).length := lt_length_batchLevel_succ ha
    have hparent : (batchLevel A lh xs (k + 1))[a / 2] =
        A.parent (siblingAt A lh xs k a) (batchLevel A lh xs k)[a] := by
      have h := parent_siblingAt ha
      rw [if_neg hae, List.getElem?_eq_getElem hP] at h
      exact Option.some.inj h
    have hpairs := pairLayer_segment (show (a + 1) % 2 = 0 by omega) (by omega) hb hrp hrs
    rw [show (a + 1) / 2 = a / 2 + 1 by omega] at hpairs
    rw [segment_eq_cons hab hb, segment_eq_cons (show a / 2 ≤ b / 2 by omega)
      (lt_length_batchLevel_succ hb)]
    simp [RangeProof.parentLayer, index_eq_ok hlp, index_eq_ok hls, hae, hpairs, hparent]

end RangeWalk

/-- Proof `p` records, on its entries from layer `k` over `n` layers, the
turns and siblings of node `j` of layer `k` and of its ancestors. -/
def CarriesPath (xs : List E) (p : Proof E) (k n j : Nat) : Prop :=
  ∀ m < n, p.path[k + m]? = some (decide ((j >>> m) % 2 = 0)) ∧
    p.lemma'[k + m + 1]? = some (siblingAt A lh xs (k + m) (j >>> m))

section RangeLoop

variable {A lh} {xs : List E}

theorem CarriesPath.head {p : Proof E} {k n j : Nat} (h : CarriesPath A lh xs p k (n + 1) j) :
    p.path[k]? = some (decide (j % 2 = 0)) ∧ p.lemma'[k + 1]? = some (siblingAt A lh xs k j) := by
  simpa using h 0 (by omega)

theorem CarriesPath.tail {p : Proof E} {k n j : Nat} (h : CarriesPath A lh xs p k (n + 1) j) :
    CarriesPath A lh xs p (k + 1) n (j >>> 1) := by
  intro m hm
  have hm' := h (m + 1) (by omega)
  rwa [Nat.add_comm m 1, Nat.shiftRight_add, ← Nat.add_assoc] at hm'

/-- A proof built by `gen_proof` for leaf `i` records its path from the
leaves. -/
theorem carriesPath_proof (n i : Nat) (x root : E) :
    CarriesPath A lh xs (leafProof A lh xs n i x root) 0 n i := by
  intro m hm
  refine ⟨by simpa [leafProof] using getElem?_proofTurns n i m hm, ?_⟩
  rw [leafProof, Nat.zero_add, List.cons_append, List.getElem?_cons_succ,
    List.getElem?_append_left (by simpa using hm)]
  simpa using getElem?_proofSiblings n 0 i m hm

/-- The loop of `RangeProof::validate` over `n + 1` layers from layer `k`,
on the nodes from `a` through `b`, when the left proof carries the path of
`a` and the right one that of `b`: the nodes of layer `k + n + 1` above
them. -/
theorem parentLayers_segment (rp : RangeProof E) :
    ∀ n k a b (children : List E), a ≤ b → b < (batchLevel A lh xs k).length →
      CarriesPath A lh xs rp.leftProof k (n + 1) a → CarriesPath A lh xs rp.rightProof k (n + 1) b →
      RangeProof.parentLayers A rp (n + 1) k children (segment (batchLevel A lh xs k) a b) =
        .ok (segment (batchLevel A lh xs (k + n + 1)) (a >>> (n + 1)) (b >>> (n + 1)))
  | n, k, a, b, children, hab, hb, hl, hr => by
    have hlayer := parentLayer_segment hab hb hl.head.1 hl.head.2 hr.head.1 hr.head.2
    rw [RangeProof.parentLayers, hlayer, Except.ok_bind]
    cases n with
    | zero => simp [RangeProof.parentLayers, Nat.shiftRight_one]
    | succ n =>
      -- the pass above starts from the parents of the two ends
      have hb' := lt_length_batchLevel_succ hb
      rw [← Nat.shiftRight_one] at hb'
      simp only [← Nat.shiftRight_one]
      rw [parentLayers_segment rp n (k + 1) (a >>> 1) (b >>> 1) _ (by simp only [Nat.shiftRight_one]; omega)
        hb' hl.tail hr.tail, ← Nat.shiftRight_add, ← Nat.shiftRight_add,
        show k + 1 + n + 1 = k + (n + 1) + 1 by omega, Nat.add_comm 1 (n + 1)]

variable [DecidableEq E]

theorem validateIntegrity_rangeProof {n i j : Nat} {x y root : E} (hx : xs[i]? = some x)
    (hy : xs[j]? = some y) (hi : (batchLevel A lh xs n)[i >>> n]? = some root)
    (hj : (batchLevel A lh xs n)[j >>> n]? = some root) :
    RangeProof.validateIntegrity A ⟨leafProof A lh xs n i x root, leafProof A lh xs n j y root⟩ =
      .ok true := by
  simp [RangeProof.validateIntegrity, validateIntegrity_proof hx hi, validateIntegrity_proof hy hj]

/-- The range proof made of the proofs of leaves `s` and `e - 1` under the
node of the top layer `n` validates for the leaves from `s` up to `e`. -/
theorem validate_rangeProof {n s e : Nat} {root : E} (hse : s < e) (he : e ≤ xs.length)
    (hn : xs.length ≤ 2 ^ n) (htop : (batchLevel A lh xs n)[0]? = some root) :
    RangeProof.validate A
      ⟨leafProof A lh xs n s xs[s] root, leafProof A lh xs n (e - 1) xs[e - 1] root⟩
      ((xs.drop s).take (e - s)) s = .ok () := by
  -- every leaf lies under the one node of the top layer
  have hshift : ∀ i < xs.length, i >>> n = 0 := fun i hi => by
    rw [Nat.shiftRight_eq_div_pow, Nat.div_eq_of_lt (by omega)]
  have hintegrity := validateIntegrity_rangeProof
    (List.getElem?_eq_getElem (show s < xs.length by omega))
    (List.getElem?_eq_getElem (show e - 1 < xs.length by omega))
    (by rw [hshift s (by omega)]; exact htop) (by rw [hshift (e - 1) (by omega)]; exact htop)
  have hleaves : (xs.drop s).take (e - s) = segment xs s (e - 1) := by
    rw [segment, show e - 1 + 1 - s = e - s by omega]
  have hne : segment xs s (e - 1) ≠ [] := by
    rw [segment_eq_cons (by omega) (by omega)]
    exact List.cons_ne_nil _ _
  have hlen : (segment xs s (e - 1)).length = e - s := by
    rw [length_segment (by omega)]
    omega
  have hhead : index (segment xs s (e - 1)) 0 = .ok xs[s] := by
    rw [segment_eq_cons (by omega) (by omega), index_cons_zero]
  have hlast : (segment xs s (e - 1)).getLast? = some xs[e - 1] := by
    rw [segment_eq_concat (by omega) (by omega), List.getLast?_concat]
  have hpos : ∀ i < xs.length, Proof.position (proofTurns n i) = i := fun i hi => by
    rw [position_proofTurns, Nat.mod_eq_of_lt (by omega)]
  have hend : s + (e - s) - 1 = e - 1 := by omega
  rw [hleaves]
  cases n with
  | zero =>
    -- one layer: the range is the one leaf, which is the root
    obtain rfl : s = 0 := by omega
    obtain rfl : e = 1 := by omega
    have hroot : xs[0] = root := by
      rw [AppendMerkleTree.batchLevel_zero, List.getElem?_eq_getElem (by omega)] at htop
      exact Option.some.inj htop
    simp only [Nat.sub_self] at hintegrity hlast hne hlen ⊢
    simp [RangeProof.validate, hintegrity, hne, hhead, hlast, hlen, ensure,
      RangeProof.parentLayers, RangeProof.root]
    simp [proofTurns, Proof.position, expectSome, hroot]
  | succ m =>
    -- the loop climbs from the range to the one node of the top layer
    have hchildren := parentLayers_segment
      ⟨leafProof A lh xs (m + 1) s xs[s] root, leafProof A lh xs (m + 1) (e - 1) xs[e - 1] root⟩ m 0 s (e - 1) [] (by omega)
      (show e - 1 < (batchLevel A lh xs 0).length by rw [AppendMerkleTree.batchLevel_zero]; omega)
      (carriesPath_proof (m + 1) s xs[s] root)
      (carriesPath_proof (m + 1) (e - 1) xs[e - 1] root)
    rw [AppendMerkleTree.batchLevel_zero, Nat.zero_add, hshift s (by omega),
      hshift (e - 1) (by omega), segment_self htop] at hchildren
    simp [RangeProof.validate, hintegrity, hne, hhead, hlast, hlen, ensure, hchildren,
      RangeProof.root, hpos s (by omega), hpos (e - 1) (by omega), hend, expectSome]

end RangeLoop

namespace TreeRead

variable {A lh} {r : TreeRead E} {xs : List E}

/-- The siblings and turns that `gen_proof` records on `n` layers from node
`j` of layer `k`. -/
theorem proofPath_eq (hr : r.Represents A lh xs) :
    ∀ n k j, k + n < r.height → j < (batchLevel A lh xs k).length →
      r.proofPath n k j = .ok (proofSiblings A lh xs n k j, proofTurns n j)
  | 0, k, j, _, _ => rfl
  | n + 1, k, j, hkn, hj => by
    have hk : k < r.height := by omega
    have hj' : j >>> 1 < (batchLevel A lh xs (k + 1)).length := by
      rw [Nat.shiftRight_one]
      exact lt_length_batchLevel_succ hj
    rw [proofPath, proofPath_eq hr n (k + 1) (j >>> 1) (by omega) hj', proofSiblings, proofTurns]
    by_cases hev : j % 2 = 0
    · by_cases hlast : j + 1 = (batchLevel A lh xs k).length
      · simp [hev, hr.layerLen_eq k hk, hlast, hr.paddingNode_eq, siblingAt]
      · simp [hev, hr.layerLen_eq k hk, hlast, hr.node_eq k hk (j + 1) (by omega), siblingAt,
          List.getElem?_eq_getElem (show j + 1 < (batchLevel A lh xs k).length by omega)]
    · simp [hev, hr.node_eq k hk (j - 1) (by omega), siblingAt,
        List.getElem?_eq_getElem (show j - 1 < (batchLevel A lh xs k).length by omega)]

theorem leaves_eq (hr : r.Represents A lh xs) : r.leaves = .ok xs.length := by
  have hd := Merkle.one_le_depth xs.length
  exact hr.layerLen_eq 0 (by rw [hr.height_eq]; omega)

/-- The leaves fit under the layers below the top one. -/
theorem length_le_two_pow (hr : r.Represents A lh xs) : xs.length ≤ 2 ^ (r.height - 1) := by
  have hd := Merkle.one_le_depth xs.length
  exact Merkle.le_two_pow_of_depth_le (by rw [hr.height_eq]; omega)

/-- The root that a reading interface of a batch tree over leaves shows is
the node of the top layer. -/
theorem root_eq (hr : r.Represents A lh xs) (hxs : xs ≠ []) :
    ∃ root, r.root = .ok root ∧ (batchLevel A lh xs (r.height - 1))[0]? = some root := by
  have hd := Merkle.one_le_depth xs.length
  have hpos := Merkle.levels_length_pos A.parent (fun k r => A.parentSingle r (k + lh)) hxs
    (r.height - 1)
  refine ⟨(batchLevel A lh xs (r.height - 1))[0], ?_, List.getElem?_eq_getElem hpos⟩
  rw [TreeRead.root]
  exact hr.node_eq _ (by rw [hr.height_eq]; omega) 0 hpos

/-- The root of a batch tree over leaves is the root of the leaves. -/
theorem Represents.root_merkle (hr : r.Represents A lh xs) (hxs : xs ≠ []) :
    ∃ root, r.root = .ok root ∧
      Merkle.root A.parent (fun k r => A.parentSingle r (k + lh)) xs = some root := by
  obtain ⟨root, hroot, htop⟩ := root_eq hr hxs
  refine ⟨root, hroot, ?_⟩
  rw [Merkle.root, List.head?_eq_getElem?, ← hr.height_eq]
  exact htop

variable [DecidableEq E]

/-- `gen_proof` of leaf `i` of a batch tree over known leaves: the leaf, its
siblings up to the layer below the top, and the root. -/
theorem genProof_eq (hk : A.KeepsKnown) (hr : r.Represents A lh xs)
    (hx : ∀ x ∈ xs, isNull x = false) {i : Nat} (hi : i < xs.length) {root : E}
    (hroot : r.root = .ok root) (htop : (batchLevel A lh xs (r.height - 1))[0]? = some root) :
    r.genProof i = .ok (leafProof A lh xs (r.height - 1) i xs[i] root) := by
  have hd := Merkle.one_le_depth xs.length
  have hD := hr.height_eq
  have hleaves : r.leaves = .ok xs.length := leaves_eq hr
  have hnode : r.node 0 i = .ok xs[i] := hr.node_eq 0 (by omega) i hi
  have hknown : isNull xs[i] = false := hx _ (List.getElem_mem hi)
  have hroot_known : isNull root = false :=
    AppendMerkleTree.batchLevel_known A lh hk hx _ root (List.mem_of_getElem? htop)
  simp only [genProof, hleaves, hnode, Except.ok_bind, hknown]
  rw [if_neg (by omega), if_neg Bool.false_ne_true]
  by_cases h1 : r.height = 1
  · -- one layer: the only leaf is the root
    have hlen : xs.length = 1 := by
      have := Merkle.le_two_pow_of_depth_le (show Merkle.depth xs.length ≤ 0 + 1 by omega)
      omega
    obtain rfl : i = 0 := by omega
    have hroot0 : root = xs[0] := by
      rw [h1, Nat.sub_self, AppendMerkleTree.batchLevel_zero, List.getElem?_eq_getElem hi,
        Option.some.injEq] at htop
      exact htop.symm
    rw [if_pos h1, hroot, Except.ok_bind, h1]
    simp [leafProof, Proof.new, proofSiblings, proofTurns, hroot0]
  · rw [if_neg h1, proofPath_eq hr _ 0 i (by omega) hi]
    simp only [Except.ok_bind, hroot]
    have hany : (xs[i] :: proofSiblings A lh xs (r.height - 1) 0 i ++ [root]).any isNull = false := by
      simp only [List.cons_append, List.any_cons, hknown, Bool.false_or, List.any_append,
        List.any_cons, List.any_nil, hroot_known, Bool.or_false]
      exact List.any_eq_false.mpr fun s hs => by
        simp [proofSiblings_known hk hx (show i < (batchLevel A lh xs 0).length from hi) s hs]
    rw [if_neg (by rw [hany]; exact Bool.false_ne_true)]
    simp [leafProof, Proof.new]

/-- Every leaf of a batch tree over known leaves has a proof, which
validates for the leaf at its position and names the tree's root. -/
theorem genProof_validate (hk : A.KeepsKnown) (hr : r.Represents A lh xs)
    (hx : ∀ x ∈ xs, isNull x = false) {i : Nat} (hi : i < xs.length) :
    ∃ p, r.genProof i = .ok p ∧ p.validate A xs[i] i = .ok () ∧ p.root = r.root := by
  obtain ⟨root, hroot, htop⟩ := root_eq hr (List.ne_nil_of_length_pos (by omega))
  have hn := length_le_two_pow hr
  refine ⟨_, genProof_eq hk hr hx hi hroot htop,
    validate_proof (List.getElem?_eq_getElem hi) ?_ (by omega), by rw [root_leafProof, hroot]⟩
  -- the leaf lies under the one node of the top layer
  rw [Nat.shiftRight_eq_div_pow, Nat.div_eq_of_lt (by omega)]
  exact htop

/-- Every range of leaves of a batch tree over known leaves has a range
proof, which validates for those leaves and names the tree's root. -/
theorem genRangeProof_validate (hk : A.KeepsKnown) (hr : r.Represents A lh xs)
    (hx : ∀ x ∈ xs, isNull x = false) {s e : Nat} (hse : s < e) (he : e ≤ xs.length) :
    ∃ rp, r.genRangeProof s e = .ok rp ∧ rp.validate A ((xs.drop s).take (e - s)) s = .ok () ∧
      rp.root = r.root := by
  obtain ⟨root, hroot, htop⟩ := root_eq hr (List.ne_nil_of_length_pos (by omega))
  refine ⟨_, ?_, validate_rangeProof hse he (length_le_two_pow hr) htop,
    by rw [RangeProof.root, root_leafProof, hroot]⟩
  simp [genRangeProof, Nat.not_le.mpr hse, genProof_eq hk hr hx (show s < xs.length by omega) hroot htop,
    genProof_eq hk hr hx (show e - 1 < xs.length by omega) hroot htop]

/-- A batch tree over known leaves: every proof is complete. -/
theorem Represents.proofsComplete (hk : A.KeepsKnown) (hr : r.Represents A lh xs)
    (hx : ∀ x ∈ xs, isNull x = false) : r.ProofsComplete A xs where
  leaves_eq := leaves_eq hr
  genProof_ok _ hi := genProof_validate hk hr hx hi
  genRangeProof_ok _ _ hse he :=
    let ⟨rp, hgen, hvalid, _⟩ := genRangeProof_validate hk hr hx hse he
    ⟨rp, hgen, hvalid⟩

end TreeRead

namespace AppendMerkleTree

/-- The append-only tree over the batch layers of `xs` shows the batch tree
over `xs` to its readers. -/
theorem toRead_represents (t : AppendMerkleTree E) (xs : List E) :
    (t.withLayers (batchLayers A t.leafHeight xs)).toRead.Represents A t.leafHeight xs where
  height_eq := length_batchLayers A _ xs
  layerLen_eq k hk :=
    layerLen_withLayers (getElem?_batchLayers A _ xs (by simpa [toRead, height, NodeManager.numLayers] using hk))
  node_eq k hk j hj :=
    node_withLayers (getElem?_batchLayers A _ xs (by simpa [toRead, height, NodeManager.numLayers] using hk)) hj
  paddingNode_eq _ := rfl

end AppendMerkleTree

end ZgStorage

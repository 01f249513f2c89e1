import ZgStorage.MerkleLight.Build

/-!
# The proofs `gen_proof` makes

`gen_proof` climbs from leaf `i` layer by layer, at each one taking the hash
of its node's sibling, through the sibling's link when that is null, and
nothing when the sibling is the pad. Over a tree as `from_iter` builds it,
the step at layer `l` adds the `sibling` of node `i / 2 ^ l`
(`IsBuilt.genProofLoop_succ`), which is how the split tree's proof of the
leaf within its node grows by a layer (`SplitTree.proof_chunk_succ_reverse`):
so the walk collects the split tree's proof of leaf `i`, bottom first
(`IsBuilt.genProofLoop_run`, `IsBuilt.genProof`). `validate` climbs a lemma
along its path (`Proof.validate_eq_climb`), so every proof validates, with
the leaf hash as its item and the root of the tree as its root
(`IsBuilt.genProof_spec`).
-/

namespace ZgStorage

namespace MerkleLight

open SplitTree

variable {T : Type}

/-! ## Proofs and their check -/

theorem Proof.new_of_two_lt {hash : List T} {path : List Bool} (h : 2 < hash.length)
    (h' : hash.length - 2 = path.length) : Proof.new hash path = .ok ⟨hash, path⟩ := by
  rw [Proof.new, if_pos h, if_pos h']

variable [Inhabited T]

/-- Validating a proof climbs its siblings from its item, and compares with
its root. -/
theorem Proof.validate_eq_climb [DecidableEq T] (A : Algorithm T) (a r : T) (P : List (T × Bool)) :
    Proof.validate A ⟨a :: P.map Prod.fst ++ [r], P.map Prod.snd⟩ = decide (climb A.node a P = r) := by
  have hfold : ∀ m ≤ P.length, (List.range' 1 m).foldl (fun h i => if (P.map Prod.snd)[i - 1]! then
      A.node h (a :: P.map Prod.fst ++ [r])[i]! else A.node (a :: P.map Prod.fst ++ [r])[i]! h) a =
      climb A.node a (P.take m) := by
    intro m hm
    induction m with
    | zero => rfl
    | succ m ih =>
      have hm' : m < P.length := by omega
      rw [List.range'_concat, List.foldl_append, ih (by omega), List.take_add_one, List.getElem?_eq_getElem hm',
        Option.toList_some, climb_append]
      simp [List.getElem!_eq_getElem?_getD, hm', List.getElem?_append_left, climb, Nat.add_comm 1 m]
  have hitem : (⟨a :: P.map Prod.fst ++ [r], P.map Prod.snd⟩ : Proof T).item = a := rfl
  have hroot : (⟨a :: P.map Prod.fst ++ [r], P.map Prod.snd⟩ : Proof T).root = r := by
    rw [Proof.root, List.getLast!_eq_getLast?_getD, List.cons_append, List.getLast?_cons, List.getLast?_append]
    rfl
  unfold Proof.validate
  simp only [List.length_append, List.length_cons, List.length_map, List.length_nil]
  rw [if_neg (by omega), if_neg (by omega), show P.length + 1 + (0 + 1) - 2 = P.length by omega, hitem, hroot,
    hfold _ (Nat.le_refl _), List.take_length]

/-! ## The walk -/

theorem genProofLoop_congr [DecidableEq T] (t : MerkleTree T) (base j : Nat) {width width' : Nat} (h : width = width')
    (hw : 2 ≤ width) (hw' : 2 ≤ width') («lemma» : List T) (path : List Bool) :
    t.genProofLoop base j width hw «lemma» path = t.genProofLoop base j width' hw' «lemma» path := by
  subst h
  rfl

section Walk

variable [DecidableEq T] {A : Algorithm T} {y : List T} {t : MerkleTree T} {top : Nat}
  (hne : NoNullNode A y)
include hne

/-- One layer of the walk of `gen_proof` adds the sibling of the node. -/
theorem IsBuilt.genProofLoop_succ (ht : IsBuilt A y t top) {l : Nat} (hl : l < top) {j : Nat}
    (hj : j < layerWidth y.length l) (hw : 2 ≤ layerWidth y.length l + layerWidth y.length l % 2)
    (hw' : 2 ≤ layerWidth y.length (l + 1) + layerWidth y.length (l + 1) % 2) («lemma» : List T) (path : List Bool) :
    t.genProofLoop (layerBase y.length l) j (layerWidth y.length l + layerWidth y.length l % 2) hw «lemma» path =
      t.genProofLoop (layerBase y.length (l + 1)) (j / 2) (layerWidth y.length (l + 1) + layerWidth y.length (l + 1) % 2)
        hw' («lemma» ++ (sibling A.node y l j).map Prod.fst) (path ++ (sibling A.node y l j).map Prod.snd) := by
  have hn : 0 < y.length := by
    have := lt_layerWidth_iff.mp (Nat.lt_of_le_of_lt (Nat.zero_le j) hj)
    omega
  have hlen := ht.length_data hn
  have hbase := layerBase_succ_le (n := y.length) hl
  have hnext : (if (layerWidth y.length l + layerWidth y.length l % 2) / 2 % 2 = 1 then
      (layerWidth y.length l + layerWidth y.length l % 2) / 2 + 1 else (layerWidth y.length l + layerWidth y.length l % 2) / 2) =
      layerWidth y.length (l + 1) + layerWidth y.length (l + 1) % 2 := by
    rw [layerWidth]
    split <;> omega
  rw [MerkleTree.genProofLoop, dif_pos (by omega)]
  rcases Nat.mod_two_eq_zero_or_one j with h0 | h1
  · by_cases hR : j + 1 < layerWidth y.length l
    · -- the node is a left child and its sibling has leaves: its root, from the node or through its link
      have hsib : sibling A.node y l j = [(SplitTree.root A.node (chunk y l (j + 1)), true)] := by
        rw [sibling, if_pos h0, if_neg (chunk_ne_nil_iff.mpr hR)]
      have hroot := hne _ _ hR
      have hd := ht.built.node l hl.le (j + 1) hR
      rw [← Nat.add_assoc] at hd
      by_cases hreal : IsReal y.length l (j + 1)
      · rw [nodeValue_of_isReal hreal] at hd
        simp only [if_pos h0, List.getElem!_eq_getElem?_getD, hd, Option.getD_some, if_neg hroot, Except.pure_eq_ok,
          Except.ok_bind, Option.elim_some, hsib, List.map_cons, List.map_nil, decide_eq_true h0]
        exact genProofLoop_congr t _ _ hnext _ _ _ _
      · obtain ⟨q, hq, hdq⟩ := ht.built.link l hl.le (j + 1) hR hreal (Or.inl (by omega))
        rw [nodeValue_of_not_isReal hreal] at hd
        rw [← Nat.add_assoc] at hq
        simp only [if_pos h0, List.getElem!_eq_getElem?_getD, hd, Option.getD_some, if_true, hq, hdq, if_neg hroot,
          Except.pure_eq_ok, Except.ok_bind, Option.elim_some, hsib, List.map_cons, List.map_nil, decide_eq_true h0]
        exact genProofLoop_congr t _ _ hnext _ _ _ _
    · -- the node is the last of a layer of odd width: its sibling is the pad, which is skipped
      have hodd : layerWidth y.length l % 2 = 1 := by omega
      have hsib : sibling A.node y l j = [] := by
        rw [sibling, if_pos h0, if_pos (not_not.mp (mt chunk_ne_nil_iff.mp hR))]
      obtain ⟨hd, hg⟩ := ht.built.pad l hl hodd
      rw [show layerBase y.length l + layerWidth y.length l = layerBase y.length l + j + 1 by omega] at hd hg
      simp only [if_pos h0, List.getElem!_eq_getElem?_getD, hd, Option.getD_some, if_true, hg, Except.pure_eq_ok,
        Except.ok_bind, Option.elim_some, Option.elim_none, hsib, List.map_nil, List.append_nil]
      exact genProofLoop_congr t _ _ hnext _ _ _ _
  · -- the node is a right child: its sibling is the real node on its left
    have hsib : sibling A.node y l j = [(SplitTree.root A.node (chunk y l (j - 1)), false)] := by
      rw [sibling, if_neg (by omega)]
    have hleft := isReal_left (n := y.length) (l := l) (p := j / 2) (by omega)
    have hd := ht.built.node l hl.le (2 * (j / 2)) (by omega)
    rw [nodeValue_of_isReal hleft, show layerBase y.length l + 2 * (j / 2) = layerBase y.length l + j - 1 by omega,
      show 2 * (j / 2) = j - 1 by omega] at hd
    simp only [List.getElem!_eq_getElem?_getD, hd, Option.getD_some, Except.pure_eq_ok, Except.ok_bind,
      Option.elim_some, hsib, List.map_cons, List.map_nil, h1, Nat.one_ne_zero, decide_false]
    exact genProofLoop_congr t _ _ hnext _ _ _ _

/-- The walk from layer `l` to the top adds the siblings of the layers
between: from the proof of leaf `i` within its node of layer `l`, it makes
the proof within the top node. -/
theorem IsBuilt.genProofLoop_run (ht : IsBuilt A y t top) {i : Nat} (hi : i < y.length) (pre : List T) :
    ∀ l ≤ top, ∀ hw, t.genProofLoop (layerBase y.length l) (i / 2 ^ l)
      (layerWidth y.length l + layerWidth y.length l % 2) hw
      (pre ++ (proof A.node (chunk y l (i / 2 ^ l)) (i % 2 ^ l)).reverse.map Prod.fst)
      ((proof A.node (chunk y l (i / 2 ^ l)) (i % 2 ^ l)).reverse.map Prod.snd) =
      .ok (pre ++ (proof A.node (chunk y top (i / 2 ^ top)) (i % 2 ^ top)).reverse.map Prod.fst,
        (proof A.node (chunk y top (i / 2 ^ top)) (i % 2 ^ top)).reverse.map Prod.snd) := by
  have hn : 0 < y.length := by omega
  intro l hl
  induction h : top - l generalizing l with
  | zero =>
    -- at the top the loop stops
    obtain rfl : l = top := by omega
    intro hw
    rw [MerkleTree.genProofLoop, dif_neg (by rw [ht.length_data hn]; omega)]
  | succ d ih =>
    intro hw
    have hl' : l < top := by omega
    have hj : i / 2 ^ l < layerWidth y.length l := lt_layerWidth_iff.mpr (by
      have := Nat.div_mul_le_self i (2 ^ l)
      omega)
    have hw' : 2 ≤ layerWidth y.length (l + 1) + layerWidth y.length (l + 1) % 2 := by
      have := layerWidth_pos (l := l + 1) hn
      omega
    rw [ht.genProofLoop_succ hne hl' hj hw hw', List.append_assoc, ← List.map_append, ← List.map_append,
      ← proof_chunk_succ_reverse hi, Nat.div_div_eq_div_mul, ← Nat.pow_succ]
    exact ih (l + 1) (by omega) (by omega) hw'

/-- Over two leaves or more, the proof of leaf `i` is the leaf hash, the split
tree's proof of the leaf bottom first, and the root. -/
theorem IsBuilt.genProof (ht : IsBuilt A y t top) (hn : 2 ≤ y.length) {i : Nat} (hi : i < y.length) :
    t.genProof i = .ok ⟨y[i] :: (proof A.node y i).reverse.map Prod.fst ++ [SplitTree.root A.node y],
      (proof A.node y i).reverse.map Prod.snd⟩ := by
  have hleafs := ht.leafs_eq
  have hd := ht.built.node 0 (Nat.zero_le _) i hi
  rw [nodeValue_of_isReal (show IsReal y.length 0 i from trivial), chunk_zero hi, root_singleton,
    show layerBase y.length 0 + i = i from Nat.zero_add i] at hd
  have hw0def : layerWidth y.length 0 = y.length := rfl
  have hw0 : 2 ≤ layerWidth y.length 0 + layerWidth y.length 0 % 2 := by
    rw [hw0def]
    omega
  have hrun := ht.genProofLoop_run hne hi [y[i]] 0 (Nat.zero_le _) hw0
  have hi2 : i < 2 ^ top := Nat.lt_of_lt_of_le hi ((layerWidth_le_one_iff (by omega)).mp ht.top_le)
  simp only [layerBase, Nat.pow_zero, Nat.div_one, Nat.mod_one, chunk_zero hi,
    proof_of_le_one (show [y[i]].length ≤ 1 from Nat.le_refl 1), List.reverse_nil, List.map_nil, List.append_nil,
    Nat.div_eq_of_lt hi2, Nat.mod_eq_of_lt hi2, ht.chunk_top (by omega)] at hrun
  have hP : proof A.node y i ≠ [] := proof_ne_nil hn i
  unfold MerkleTree.genProof
  rw [dif_neg (by omega), dif_pos (by omega), List.getElem!_eq_getElem?_getD, hd, Option.getD_some,
    genProofLoop_congr t 0 i (show _ = layerWidth y.length 0 + layerWidth y.length 0 % 2 by
      rw [hleafs, hw0def]
      split <;> omega)
      _ hw0, hrun, Except.ok_bind, ht.root (by omega), List.singleton_append]
  apply Proof.new_of_two_lt <;> simp only [List.length_append, List.length_cons, List.length_map, List.length_reverse,
    List.length_nil]
  · have := List.length_pos_of_ne_nil hP
    omega
  · omega

/-- Every proof `gen_proof` makes validates, has the leaf hash as its item and
the root as its root, and its path, from the top, is the split tree's. -/
theorem IsBuilt.genProof_spec (ht : IsBuilt A y t top) {i : Nat} (hi : i < y.length) :
    ∃ p, t.genProof i = .ok p ∧ p.validate A = true ∧ p.item = y[i] ∧ p.root = SplitTree.root A.node y ∧
      p.path.reverse = (proof A.node y i).map Prod.snd := by
  by_cases hn : 2 ≤ y.length
  · refine ⟨_, ht.genProof hne hn hi, ?_, rfl, ?_, ?_⟩
    · rw [Proof.validate_eq_climb, climb_proof y i hi]
      exact decide_eq_true rfl
    · rw [Proof.root, List.getLast!_eq_getLast?_getD, List.cons_append, List.getLast?_cons, List.getLast?_append]
      rfl
    · rw [← List.map_reverse, List.reverse_reverse]
  · -- one leaf: the proof is the root alone
    obtain ⟨a, ha⟩ : ∃ a, y = [a] := List.length_eq_one_iff.mp (by omega)
    subst ha
    obtain rfl : i = 0 := by simp at hi; omega
    have hroot := ht.root (by simp)
    rw [root_singleton] at hroot
    refine ⟨⟨[t.root], []⟩, ?_, ?_, hroot, by rw [root_singleton]; exact hroot, ?_⟩
    · unfold MerkleTree.genProof
      rw [dif_pos (by rw [ht.leafs_eq]; rfl), if_pos rfl]
      rfl
    · rw [Proof.validate, if_pos ⟨rfl, rfl⟩]
    · rw [proof_of_le_one (by simp)]
      rfl

end Walk

end MerkleLight

end ZgStorage

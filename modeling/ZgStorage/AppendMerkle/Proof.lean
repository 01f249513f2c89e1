import ZgStorage.AppendMerkle.Hash
import ZgStorage.Framework.Except

/-!
# Inclusion and range proofs

`proof.rs` and the reading half of `merkle_tree.rs`. A `Proof` lists the
proven leaf, its sibling on each layer and the root (`lemma`, which is
`lemma'` here since `lemma` is a keyword), and on each layer whether the
path goes through a left child (`path`). A `RangeProof`
is the proofs of the first and the last leaf of a range; its validation
rebuilds every layer of the range between them.

`MerkleTreeRead` is the read interface of a tree (`TreeRead` here): the
append-only tree and its history versions both give one, and `gen_proof`
and `gen_range_proof` are written once against it.

`Proof::new` checks `lemma.len() == path.len() + 2`, but a `Proof` decoded
from bytes has any lengths, so the functions here accept every value.
Positions are unbounded: `position` is `Σ 2ⁱ` over the right turns, as the
loop computes it for paths shorter than 64.
-/

namespace ZgStorage

variable {T : Type} [DecidableEq T]

/-- `Option::expect` and `Option::unwrap`: a panic on `None`. -/
def expectSome {α : Type} (o : Option α) (msg : String) : Except Error α :=
  match o with
  | some a => .ok a
  | none => .error (.panic msg)

/-- Indexing a slice: a panic out of range. -/
def index {α : Type} (xs : List α) (i : Nat) : Except Error α :=
  expectSome xs[i]? "index out of bounds"

theorem index_eq_ok {α : Type} {xs : List α} {i : Nat} {x : α} (h : xs[i]? = some x) :
    index xs i = .ok x := by
  simp [index, expectSome, h]

theorem getElem?_of_index {α : Type} {xs : List α} {i : Nat} {x : α} (h : index xs i = .ok x) :
    xs[i]? = some x := by
  unfold index expectSome at h
  split at h <;> simp_all

@[simp] theorem index_cons_zero {α : Type} (x : α) (xs : List α) : index (x :: xs) 0 = .ok x := rfl

/-- `ensure!`: fail with `msg` unless `b`. -/
def ensure (b : Bool) (msg : String) : Except Error Unit :=
  if b then .ok () else .error (.bail msg)

@[simp] theorem ensure_eq_ok {b : Bool} {msg : String} {u : Unit} : ensure b msg = .ok u ↔ b = true := by
  cases b <;> simp [ensure]

/-- `Proof<T>`. -/
structure Proof (T : Type) where
  lemma' : List T
  path : List Bool
  deriving DecidableEq

namespace Proof

/-- `Proof::new`. -/
def new (hash : List T) (path : List Bool) : Except Error (Proof T) :=
  if hash.length ≠ path.length + 2 then
    .error (.bail "Proof::new: expected hash length = path.len() + 2")
  else .ok ⟨hash, path⟩

/-- `Proof::item`: the first element of the lemma. -/
def item (p : Proof T) : Except Error T :=
  expectSome p.lemma'.head? "called unwrap on a None value"

/-- `Proof::root`: the last element of the lemma. -/
def root (p : Proof T) : Except Error T :=
  expectSome p.lemma'.getLast? "called unwrap on a None value"

/-- The loop of `validate_integrity`: hash `h` with the siblings `sibs`
(`lemma[1..size - 1]`), on the side `path[i - 1]` says. -/
def chain (A : Algorithm T) : List Bool → List T → T → Except Error T
  | _, [], h => .ok h
  | b :: path, s :: sibs, h => chain A path sibs (if b then A.parent h s else A.parent s h)
  | [], _ :: _, _ => .error (.panic "index out of bounds")

/-- `Proof::validate_integrity`. -/
def validateIntegrity (A : Algorithm T) (p : Proof T) : Except Error Bool := do
  let size := p.lemma'.length
  if size < 2 then return false
  let h ← p.item
  let h ← chain A p.path ((p.lemma'.drop 1).take (size - 2)) h
  return decide (h = (← p.root))

/-- `Proof::position`: bit `i` is set when the path turns right on layer `i`. -/
def position : List Bool → Nat
  | [] => 0
  | isLeft :: path => (if isLeft then 0 else 1) + 2 * position path

/-- A path of `n` turns spells a position below `2ⁿ`. -/
theorem position_lt : ∀ path : List Bool, position path < 2 ^ path.length
  | [] => by simp [position]
  | isLeft :: path => by
    have := position_lt path
    rw [position, List.length_cons, Nat.pow_succ]
    split <;> omega

/-- Turn `i` of a path is bit `i` of its position: `true`, a left child,
for a clear bit. -/
theorem getElem?_of_position : ∀ (path : List Bool) (i : Nat), i < path.length →
    path[i]? = some (decide ((position path >>> i) % 2 = 0))
  | isLeft :: path, 0, _ => by
    cases isLeft <;> simp [position]
  | isLeft :: path, i + 1, hi => by
    have hhalf : ((if isLeft then 0 else 1) + 2 * position path) / 2 = position path := by
      split <;> omega
    rw [List.getElem?_cons_succ, getElem?_of_position path i (by simpa using hi), Nat.add_comm i 1,
      Nat.shiftRight_add, Nat.shiftRight_one, position, hhalf]

/-- `Proof::validate`. -/
def validate (A : Algorithm T) (p : Proof T) (item : T) (pos : Nat) : Except Error Unit := do
  if !(← p.validateIntegrity A) then throw (.bail "Invalid proof")
  if item ≠ (← p.item) then throw (.bail "Proof item mismatch")
  if pos ≠ position p.path then throw (.bail "Proof position mismatch")

end Proof

/-- `RangeProof<E>`. -/
structure RangeProof (T : Type) where
  leftProof : Proof T
  rightProof : Proof T
  deriving DecidableEq

namespace RangeProof

/-- `chunks_exact(2)` over a layer: the parents of its pairs, and the
remainder. -/
def pairParents (A : Algorithm T) : List T → List T × Option T
  | a :: b :: rest => (A.parent a b :: (pairParents A rest).1, (pairParents A rest).2)
  | [r] => ([], some r)
  | [] => ([], none)

/-- `RangeProof::validate_integrity`. -/
def validateIntegrity (A : Algorithm T) (rp : RangeProof T) : Except Error Bool := do
  let l ← rp.leftProof.validateIntegrity A
  if !l then return false
  let r ← rp.rightProof.validateIntegrity A
  if !r then return false
  let lr ← rp.leftProof.root
  let rr ← rp.rightProof.root
  return decide (lr = rr ∧ rp.leftProof.path.length = rp.rightProof.path.length)

/-- `RangeProof::root`. -/
def root (rp : RangeProof T) : Except Error T := rp.leftProof.root

/-- The second half of a pass of the loop of `validate`: the parents of the
pairs of `rest` (`chunks_exact(2)`), then of its odd last node with the right
neighbour from the right proof's lemma. -/
def pairLayer (A : Algorithm T) (rp : RangeProof T) (height : Nat) (rest : List T) :
    Except Error (List T) :=
  let (parents, remainder) := pairParents A rest
  match remainder with
  | none => pure parents
  | some rightMost => do
    if (← index rp.rightProof.path height) then
      let sib ← index rp.rightProof.lemma' (height + 1)
      pure (parents ++ [A.parent rightMost sib])
    else throw (.bail "Unexpected error")

/-- One pass of the loop of `validate`: the layer above `current`, taking the
left neighbour of its first node and the right neighbour of its last from
the two proofs' lemmas. -/
def parentLayer (A : Algorithm T) (rp : RangeProof T) (height : Nat) (current : List T) :
    Except Error (List T) := do
  let isLeft ← index rp.leftProof.path height
  let (front, startIndex) ← if !isLeft then do
      let sib ← index rp.leftProof.lemma' (height + 1)
      let first ← index current 0
      pure ([A.parent sib first], 1)
    else pure ([], 0)
  if current.length < startIndex then throw (.panic "range start index out of range")
  let parents ← pairLayer A rp height (current.drop startIndex)
  pure (front ++ parents)

/-- The loop of `validate` over `n` layers from `height`: the last
`children_layer`. -/
def parentLayers (A : Algorithm T) (rp : RangeProof T) :
    Nat → Nat → List T → List T → Except Error (List T)
  | 0, _, children, _ => .ok children
  | n + 1, height, _, current => do
    let parent ← parentLayer A rp height current
    parentLayers A rp n (height + 1) parent parent

/-- `RangeProof::validate`. -/
def validate (A : Algorithm T) (rp : RangeProof T) (rangeLeaves : List T) (startPosition : Nat) :
    Except Error Unit := do
  if !(← rp.validateIntegrity A) then throw (.bail "Invalid range proof")
  if rangeLeaves.isEmpty then throw (.bail "Empty range")
  let endPosition := startPosition + rangeLeaves.length - 1
  ensure (decide ((← rp.leftProof.item) = (← index rangeLeaves 0))) "equal check fails!"
  ensure (decide ((← rp.rightProof.item) = (← expectSome rangeLeaves.getLast? "not empty")))
    "equal check fails!"
  ensure (decide (Proof.position rp.leftProof.path = startPosition)) "equal check fails!"
  ensure (decide (Proof.position rp.rightProof.path = endPosition)) "equal check fails!"
  let treeDepth := rp.leftProof.path.length + 1
  let children ← parentLayers A rp (treeDepth - 1) 0 [] rangeLeaves
  if children.isEmpty then
    ensure (decide (rangeLeaves.length = 1)) "equal check fails!"
    ensure (decide ((← index rangeLeaves 0) = (← rp.root))) "equal check fails!"
  else
    ensure (decide (children.length = 1)) "equal check fails!"
    let computedRoot ← expectSome children.getLast? "called unwrap on a None value"
    ensure (decide (computedRoot = (← rp.root))) "equal check fails!"

/-- A decoded range proof whose left proof has a lemma longer than its path
allows makes `validate` index past the end of the path: a panic, whatever
the algorithm, the right proof and the range. -/
theorem validate_short_path (A : Algorithm T) (x : T) (rightProof : Proof T)
    (rangeLeaves : List T) (startPosition : Nat) :
    validate A ⟨⟨[x, x, x], []⟩, rightProof⟩ rangeLeaves startPosition =
      .error (.panic "index out of bounds") := rfl

end RangeProof

/-- `MerkleTreeRead`: what a tree shows to readers. -/
structure TreeRead (E : Type) where
  node : Nat → Nat → Except Error E
  height : Nat
  layerLen : Nat → Except Error Nat
  paddingNode : Nat → E

namespace TreeRead

variable {E : Type} [DecidableEq E] [HashElement E] (t : TreeRead E)

def leaves : Except Error Nat := t.layerLen 0

/-- `MerkleTreeRead::root`: the node of the top layer. With no layers,
`height() - 1` wraps to a layer that neither tree has, as layer `0`. -/
def root : Except Error E := t.node (t.height - 1) 0

/-- The loop of `gen_proof` over `n` layers from `height`: the sibling of
`index` on each layer (the padding for a missing right sibling) and
whether `index` is a left child. -/
def proofPath : Nat → Nat → Nat → Except Error (List E × List Bool)
  | 0, _, _ => .ok ([], [])
  | n + 1, height, index => do
    let (sib, isLeft) ← if index % 2 = 0 then do
        if index + 1 = (← t.layerLen height) then pure (t.paddingNode height, true)
        else pure (← t.node height (index + 1), true)
      else pure (← t.node height (index - 1), false)
    let (sibs, path) ← proofPath n (height + 1) (index >>> 1)
    pure (sib :: sibs, isLeft :: path)

/-- `MerkleTreeRead::gen_proof`. -/
def genProof (leafIndex : Nat) : Except Error (Proof E) := do
  let leaves ← t.leaves
  if leafIndex ≥ leaves then throw (.bail "leaf index out of bound")
  if isNull (← t.node 0 leafIndex) then throw (.bail "Not ready to generate proof")
  if t.height = 1 then
    let r ← t.root
    return ← Proof.new [r, r] []
  let leaf ← t.node 0 leafIndex
  let (sibs, path) ← t.proofPath (t.height - 1) 0 leafIndex
  let lemma' := leaf :: sibs ++ [← t.root]
  if lemma'.any isNull then throw (.bail "Not enough data to generate proof")
  Proof.new lemma' path

/-- `MerkleTreeRead::gen_range_proof`. -/
def genRangeProof (startIndex endIndex : Nat) : Except Error (RangeProof E) := do
  if endIndex ≤ startIndex then throw (.bail "invalid proof range")
  let leftProof ← t.genProof startIndex
  let rightProof ← t.genProof (endIndex - 1)
  return ⟨leftProof, rightProof⟩

end TreeRead

end ZgStorage

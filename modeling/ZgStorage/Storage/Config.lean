import ZgStorage.LogStore.Flow

/-!
# Shard configurations

`config.rs`: a node of shard `shard_id` out of `num_shard` stores the
segments whose index is `shard_id` modulo `num_shard` (`in_range`); a valid
configuration has `num_shard` a power of two and `shard_id` below it.
`intersect` decides whether two configurations share a segment by halving
the larger `num_shard`, with its `shard_id`, until the two agree. Halving
keeps the high bits of `shard_id`, where `in_range` reads the low ones.

* `exists_inRange_iff`: two valid configurations share a segment exactly
  when the finer one's `shard_id` reduces to the coarser one's;
* `intersect_iff`: `intersect` compares the finer `shard_id` shifted right
  instead;
* `intersect_disjoint`: shard `1` of `2` and shard `2` of `4` share no
  segment, and `intersect` says they do.

`all_shards_available` inserts the valid configurations into a segment tree
built on demand: a node of `num_shard` `n` stands for one residue modulo `n`
(`residueClass`), its children for the two residues modulo `2 * n` it splits
into, and a node is covered when its residue is. `Tracks` says what each
node knows of the segments covered so far; `Tracks.insert` is one insertion.

* `allShardsAvailable_iff`: the answer is `true` exactly when the valid
  configurations cover every segment.
-/

namespace ZgStorage

namespace ShardConfig

/-- `ShardConfig::validate`. -/
def validate (c : ShardConfig) : Except String Unit :=
  if c.shardId ≥ c.numShard then
    .error ("Incorrect shard_id: expected [0, " ++ toString c.numShard ++ "), actual " ++
      toString c.shardId)
  else if c.numShard = 0 then .error "Shard num is 0"
  else if ¬ Nat.isPowerOfTwo c.numShard then
    .error ("Incorrect shard group bytes: " ++ toString c.numShard ++ ", should be power of two")
  else .ok ()

/-- The loop of `intersect`: halve the larger `num_shard`, and its
`shard_id`, until the two `num_shard` are equal. -/
def intersectLoop (leftNumShard leftShardId rightNumShard rightShardId : Nat) : Bool :=
  if leftNumShard = rightNumShard then leftShardId == rightShardId
  else if leftNumShard < rightNumShard then
    intersectLoop leftNumShard leftShardId (rightNumShard / 2) (rightShardId / 2)
  else intersectLoop (leftNumShard / 2) (leftShardId / 2) rightNumShard rightShardId
termination_by leftNumShard + rightNumShard
decreasing_by all_goals omega

/-- `ShardConfig::intersect`. -/
def intersect (c other : ShardConfig) : Bool :=
  intersectLoop c.numShard c.shardId other.numShard other.shardId

/-- `ShardConfig::miner_shard_mask`: `!(num_shard - 1)` on 64 bits. -/
def minerShardMask (c : ShardConfig) : Nat := 2 ^ 64 - 1 - (c.numShard + 2 ^ 64 - 1) % 2 ^ 64

/-- `ShardConfig::miner_shard_id`. -/
def minerShardId (c : ShardConfig) : Nat := c.shardId

theorem validate_eq_ok {c : ShardConfig} (h : c.validate = .ok ()) :
    c.shardId < c.numShard ∧ ∃ k, c.numShard = 2 ^ k := by
  unfold validate at h
  split at h
  · cases h
  split at h
  · cases h
  split at h
  · cases h
  rename_i hid _ hpow
  exact ⟨Nat.lt_of_not_le hid, not_not.mp hpow⟩

/-- On `num_shard = 2 ^ k`, the miner's mask keeps the bits from `k` to `63`. -/
theorem minerShardMask_eq {c : ShardConfig} {k : Nat} (hk : c.numShard = 2 ^ k) (h64 : k < 64) :
    c.minerShardMask = 2 ^ 64 - 2 ^ k := by
  have hlt : 2 ^ k < 2 ^ 64 := Nat.pow_lt_pow_right (by decide) h64
  have hpos := Nat.two_pow_pos k
  rw [minerShardMask, hk, show 2 ^ k + 2 ^ 64 - 1 = 2 ^ k - 1 + 2 ^ 64 by omega, Nat.add_mod_right,
    Nat.mod_eq_of_lt (by omega)]
  omega

/-- On powers of two, the loop shifts the finer `shard_id` right by the
difference of the exponents. -/
theorem intersectLoop_pow (n : Nat) : ∀ a b i j, a + b = n →
    intersectLoop (2 ^ a) i (2 ^ b) j = (i / 2 ^ (a - b) == j / 2 ^ (b - a)) := by
  induction n using Nat.strong_induction_on with
  | _ n ih =>
    intro a b i j hn
    unfold intersectLoop
    rcases Nat.lt_trichotomy a b with hlt | rfl | hgt
    · -- halve the right side: `2 ^ (b + 1) / 2 = 2 ^ b`
      have hpow : 2 ^ a < 2 ^ b := Nat.pow_lt_pow_right (by decide) hlt
      obtain ⟨b, rfl⟩ : ∃ b', b = b' + 1 := ⟨b - 1, by omega⟩
      rw [if_neg (Nat.ne_of_lt hpow), if_pos hpow, Nat.pow_succ, Nat.mul_div_cancel _ (by decide),
        ih (a + b) (by omega) a b i (j / 2) rfl, show a - b = 0 by omega,
        show a - (b + 1) = 0 by omega, show b + 1 - a = b - a + 1 by omega, Nat.pow_succ',
        Nat.div_div_eq_div_mul]
    · simp
    · -- halve the left side
      have hpow : 2 ^ b < 2 ^ a := Nat.pow_lt_pow_right (by decide) hgt
      obtain ⟨a, rfl⟩ : ∃ a', a = a' + 1 := ⟨a - 1, by omega⟩
      rw [if_neg (Nat.ne_of_gt hpow), if_neg (Nat.not_lt.mpr hpow.le), Nat.pow_succ,
        Nat.mul_div_cancel _ (by decide), ih (a + b) (by omega) a b (i / 2) j rfl,
        show b - a = 0 by omega, show b - (a + 1) = 0 by omega,
        show a + 1 - b = a - b + 1 by omega, Nat.pow_succ', Nat.div_div_eq_div_mul]

/-- `intersect` compares the coarser `shard_id` with the finer one shifted
right, by as many bits as the two `num_shard` differ. -/
theorem intersect_iff {a b : ShardConfig} (ha : a.validate = .ok ()) (hb : b.validate = .ok ())
    (hab : a.numShard ≤ b.numShard) :
    a.intersect b = true ↔ b.shardId / (b.numShard / a.numShard) = a.shardId := by
  obtain ⟨-, p, hp⟩ := validate_eq_ok ha
  obtain ⟨-, q, hq⟩ := validate_eq_ok hb
  have hpq : p ≤ q := by
    rw [hp, hq] at hab
    exact (Nat.pow_le_pow_iff_right (by decide)).mp hab
  rw [intersect, hp, hq, intersectLoop_pow (p + q) p q _ _ rfl, Nat.sub_eq_zero_of_le hpq,
    Nat.pow_zero, Nat.div_one, Nat.pow_div hpq (by decide), beq_iff_eq, eq_comm]

/-- Shard `1` of `2` against shard `3` of `4`: `3` shifted right by one bit
is `1`. -/
theorem intersect_iff_oddShards :
    (ShardConfig.mk 2 1).validate = .ok () ∧ (ShardConfig.mk 4 3).validate = .ok () ∧
      (ShardConfig.mk 2 1).numShard ≤ (ShardConfig.mk 4 3).numShard ∧
      ((ShardConfig.mk 2 1).intersect (ShardConfig.mk 4 3) = true ↔
        (ShardConfig.mk 4 3).shardId / ((ShardConfig.mk 4 3).numShard / (ShardConfig.mk 2 1).numShard) =
          (ShardConfig.mk 2 1).shardId) :=
  ⟨by decide, by decide, by decide, intersect_iff (by decide) (by decide) (by decide)⟩

/-- Shard `1` of `2` holds the odd segments and shard `2` of `4` even ones:
they share none, yet `intersect` says they do. -/
theorem intersect_disjoint :
    (ShardConfig.mk 2 1).validate = .ok () ∧ (ShardConfig.mk 4 2).validate = .ok () ∧
      (ShardConfig.mk 2 1).intersect (ShardConfig.mk 4 2) = true ∧
      ∀ s, ¬ ((ShardConfig.mk 2 1).inRange s = true ∧ (ShardConfig.mk 4 2).inRange s = true) := by
  refine ⟨by decide, by decide, ?_, ?_⟩
  · rw [intersect, intersectLoop, intersectLoop]
    decide
  · rintro s ⟨h1, h2⟩
    simp only [inRange, beq_iff_eq] at h1 h2
    omega

/-- Two segments less than `num_shard` apart are not both in range. -/
theorem inRange_add_of_lt {c : ShardConfig} (hv : c.validate = .ok ()) {x d : Nat} (hx : c.inRange x = true)
    (h0 : 0 < d) (hd : d < c.numShard) : c.inRange (x + d) = false := by
  obtain ⟨hid, -⟩ := validate_eq_ok hv
  simp only [inRange, beq_iff_eq, beq_eq_false_iff_ne] at hx ⊢
  rw [Nat.add_mod, hx, Nat.mod_eq_of_lt hd]
  intro h
  rcases Nat.lt_or_ge (c.shardId + d) c.numShard with h' | h'
  · rw [Nat.mod_eq_of_lt h'] at h
    omega
  · rw [Nat.mod_eq_sub_mod h', Nat.mod_eq_of_lt (by omega)] at h
    omega

/-- `ShardConfig::next_segment_index`. -/
def nextSegmentIndex (c : ShardConfig) (current startIndex : Nat) : Nat :=
  let shift := (startIndex + current + c.numShard - c.shardId) % c.numShard
  current + c.numShard - shift

/-- For a valid configuration, `next_segment_index` is the first index past
`current` whose segment, counted from `start_index`, is in range. -/
theorem nextSegmentIndex_spec {c : ShardConfig} (hv : c.validate = .ok ()) (current startIndex : Nat) :
    current < c.nextSegmentIndex current startIndex ∧
      c.inRange (startIndex + c.nextSegmentIndex current startIndex) = true ∧
      ∀ i, current < i → i < c.nextSegmentIndex current startIndex → c.inRange (startIndex + i) = false := by
  obtain ⟨hid, -⟩ := validate_eq_ok hv
  simp only [nextSegmentIndex, inRange, beq_iff_eq, beq_eq_false_iff_ne]
  -- the shift is the remainder of `a`; what is left is a multiple of `num_shard`
  have hdiv := Nat.div_add_mod (startIndex + current + c.numShard - c.shardId) c.numShard
  have hlt := Nat.mod_lt (startIndex + current + c.numShard - c.shardId) (Nat.zero_lt_of_lt hid)
  generalize (startIndex + current + c.numShard - c.shardId) % c.numShard = shift at hdiv hlt ⊢
  generalize hq : (startIndex + current + c.numShard - c.shardId) / c.numShard = q at hdiv
  refine ⟨by omega, ?_, fun i h₁ h₂ hmod => ?_⟩
  · rw [show startIndex + (current + c.numShard - shift) = c.shardId + c.numShard * q by omega,
      Nat.add_mul_mod_self_left, Nat.mod_eq_of_lt hid]
  · -- two indices in range differ by a multiple of `num_shard`, and these by less
    have hdiv' := Nat.div_add_mod (startIndex + i) c.numShard
    rw [hmod] at hdiv'
    rcases Nat.lt_or_ge ((startIndex + i) / c.numShard) q with hq' | hq'
    · have := Nat.mul_le_mul_left c.numShard (Nat.succ_le_of_lt hq')
      rw [Nat.mul_succ] at this
      omega
    · have := Nat.mul_le_mul_left c.numShard hq'
      omega

end ShardConfig

/-- The segments of residue `r` modulo `m`. -/
def residueClass (m r : Nat) : Set Nat := {s | s % m = r}

@[simp] theorem mem_residueClass {m r s : Nat} : s ∈ residueClass m r ↔ s % m = r := Iff.rfl

theorem mem_residueClass_self {m r : Nat} (hr : r < m) : r ∈ residueClass m r := Nat.mod_eq_of_lt hr

/-- A residue modulo `m` is two residues modulo `2 * m`. -/
theorem residueClass_split {m r : Nat} (hr : r < m) :
    residueClass m r = residueClass (2 * m) r ∪ residueClass (2 * m) (r + m) := by
  ext s
  have hmod : s % (2 * m) = s % m + m * (s / m % 2) := by
    rw [Nat.mul_comm 2 m, Nat.mod_mul]
  have hlt : s % m < m := Nat.mod_lt s (by omega)
  simp only [Set.mem_union, mem_residueClass, hmod]
  rcases Nat.mod_two_eq_zero_or_one (s / m) with h | h <;> rw [h] <;> omega

theorem residueClass_subset {m N x : Nat} (hdvd : m ∣ N) : residueClass N x ⊆ residueClass m (x % m) := by
  intro s hs
  rw [mem_residueClass] at hs ⊢
  rw [← hs, Nat.mod_mod_of_dvd s hdvd]

theorem disjoint_residueClass {m a b : Nat} (hab : a ≠ b) : Disjoint (residueClass m a) (residueClass m b) :=
  Set.disjoint_left.mpr fun _ ha hb => hab (ha.symm.trans hb)

/-- `ShardSegmentTreeNode`: a node of `num_shard` stands for the segments of
one residue modulo `num_shard`, and its two children for the two residues
modulo twice that it splits into. `push_down` makes both children at once:
a node has none (`leaf`) or two (`node`). -/
inductive ShardSegmentTreeNode where
  | leaf (numShard : Nat) (covered : Bool)
  | node (numShard : Nat) (covered : Bool) (left right : ShardSegmentTreeNode)
  deriving DecidableEq

namespace ShardSegmentTreeNode

def numShard : ShardSegmentTreeNode → Nat
  | leaf n _ | node n _ _ _ => n

def covered : ShardSegmentTreeNode → Bool
  | leaf _ c | node _ c _ _ => c

/-- The number of nodes. -/
def size : ShardSegmentTreeNode → Nat
  | leaf .. => 1
  | node _ _ l r => l.size + r.size + 1

/-- `ShardSegmentTreeNode::new`. -/
def new (numShard : Nat) : ShardSegmentTreeNode := leaf numShard false

/-- `self.covered = true`. -/
def markCovered : ShardSegmentTreeNode → ShardSegmentTreeNode
  | leaf n _ => leaf n true
  | node n _ l r => node n true l r

/-- The children after `push_down`: a leaf gets two uncovered ones of twice
its `num_shard`. -/
def pushDown : ShardSegmentTreeNode → ShardSegmentTreeNode × ShardSegmentTreeNode
  | leaf n _ => (new (n <<< 1), new (n <<< 1))
  | node _ _ l r => (l, r)

/-- `update`, over the two children: covered when both are. -/
def update (numShard : Nat) (l r : ShardSegmentTreeNode) : ShardSegmentTreeNode :=
  node numShard (l.covered && r.covered) l r

@[simp] theorem size_pos (t : ShardSegmentTreeNode) : 0 < t.size := by
  cases t <;> simp [size]

/-- A child after `push_down` has fewer nodes, or it is a new leaf of twice
the `num_shard`. -/
theorem pushDown_lt {t : ShardSegmentTreeNode} {n : Nat} (h0 : t.numShard ≠ 0) (hn : t.numShard < n) :
    Prod.Lex (· < ·) (· < ·) (t.pushDown.1.size, n - t.pushDown.1.numShard) (t.size, n - t.numShard) ∧
      Prod.Lex (· < ·) (· < ·) (t.pushDown.2.size, n - t.pushDown.2.numShard) (t.size, n - t.numShard) := by
  cases t with
  | leaf m c =>
    simp only [numShard] at h0 hn
    have hshift : n - m <<< 1 < n - m := by
      rw [Nat.shiftLeft_eq]
      omega
    exact ⟨Prod.Lex.right _ hshift, Prod.Lex.right _ hshift⟩
  | node m c l r =>
    exact ⟨Prod.Lex.left _ _ (by simp only [pushDown, size]; omega),
      Prod.Lex.left _ _ (by simp only [pushDown, size]; omega)⟩

/-- `ShardSegmentTreeNode::insert`. Where the node's `num_shard` is past the
inserted one, or `0`, the two never meet below it and the source descends
without end; no valid configuration inserted from the root gets there. -/
def insert (t : ShardSegmentTreeNode) (numShard shardId : Nat) : ShardSegmentTreeNode :=
  if t.covered then t
  else if numShard = t.numShard then t.markCovered
  else if _h : numShard < t.numShard ∨ t.numShard = 0 then t
  else if shardId % 2 = 0 then
    update t.numShard (t.pushDown.1.insert numShard (shardId >>> 1)) t.pushDown.2
  else update t.numShard t.pushDown.1 (t.pushDown.2.insert numShard (shardId >>> 1))
termination_by (t.size, numShard - t.numShard)
decreasing_by
  · exact (pushDown_lt (by omega) (by omega)).1
  · exact (pushDown_lt (by omega) (by omega)).2

/-! ### What a node knows -/

@[simp] theorem numShard_markCovered (t : ShardSegmentTreeNode) : t.markCovered.numShard = t.numShard := by
  cases t <;> rfl

@[simp] theorem covered_markCovered (t : ShardSegmentTreeNode) : t.markCovered.covered = true := by
  cases t <;> rfl

@[simp] theorem numShard_update (n : Nat) (l r : ShardSegmentTreeNode) : (update n l r).numShard = n := rfl

@[simp] theorem covered_update (n : Nat) (l r : ShardSegmentTreeNode) :
    (update n l r).covered = (l.covered && r.covered) := rfl

theorem numShard_insert (t : ShardSegmentTreeNode) (numShard shardId : Nat) :
    (t.insert numShard shardId).numShard = t.numShard := by
  rw [insert]
  split_ifs <;> simp

/-- A node of `num_shard` `n` standing for the residue `r` tracks the
segments `S` the inserted configurations cover: covered, all of its residue
is in `S`; not covered, a leaf meets `S` nowhere, and a node has a child not
covered, its children of twice `n` standing for the two halves. -/
def Tracks (S : Set Nat) : ShardSegmentTreeNode → Nat → Prop
  | leaf n c, r => r < n ∧ (c = true → residueClass n r ⊆ S) ∧ (c = false → Disjoint (residueClass n r) S)
  | node n c left right, r => r < n ∧ (c = true → residueClass n r ⊆ S) ∧
      (c = false → (left.covered && right.covered) = false ∧ left.numShard = 2 * n ∧
        right.numShard = 2 * n ∧ Tracks S left r ∧ Tracks S right (r + n))

variable {S C : Set Nat}

theorem Tracks.lt {t : ShardSegmentTreeNode} {r : Nat} (h : Tracks S t r) : r < t.numShard := by
  cases t with
  | leaf n c => exact h.1
  | node n c l rt => exact h.1

/-- A covered node tracks `S` when its residue is in `S`. -/
theorem tracks_of_covered {t : ShardSegmentTreeNode} {r : Nat} (hr : r < t.numShard) (hc : t.covered = true)
    (hS : residueClass t.numShard r ⊆ S) : Tracks S t r := by
  cases t with
  | leaf n c =>
    simp only [covered] at hc
    subst hc
    exact ⟨hr, fun _ => hS, fun h => absurd h (by decide)⟩
  | node n c l rt =>
    simp only [covered] at hc
    subst hc
    exact ⟨hr, fun _ => hS, fun h => absurd h (by decide)⟩

/-- A node is covered exactly when all of its residue is in `S`. -/
theorem Tracks.covered_iff {t : ShardSegmentTreeNode} {r : Nat} (h : Tracks S t r) :
    t.covered = true ↔ residueClass t.numShard r ⊆ S := by
  induction t generalizing r with
  | leaf n c =>
    obtain ⟨hr, hcov, hdis⟩ := h
    refine ⟨hcov, fun hsub => ?_⟩
    cases c with
    | true => rfl
    | false =>
      -- `r` itself is a segment of the residue, and it is not in `S`
      exact absurd (hsub (mem_residueClass_self hr))
        (Set.disjoint_left.mp (hdis rfl) (mem_residueClass_self hr))
  | node n c l rt ihl ihr =>
    obtain ⟨hr, hcov, hkids⟩ := h
    refine ⟨hcov, fun hsub => ?_⟩
    cases c with
    | true => rfl
    | false =>
      obtain ⟨hboth, hl, hrt, tl, trt⟩ := hkids rfl
      rw [numShard, residueClass_split hr] at hsub
      have hlc := (ihl tl).mpr (hl ▸ (Set.union_subset_iff.mp hsub).1)
      have hrc := (ihr trt).mpr (hrt ▸ (Set.union_subset_iff.mp hsub).2)
      simp [hlc, hrc] at hboth

/-- Segments outside a node's residue change nothing it knows. -/
theorem Tracks.union {t : ShardSegmentTreeNode} {r : Nat} (h : Tracks S t r)
    (hC : Disjoint (residueClass t.numShard r) C) : Tracks (S ∪ C) t r := by
  induction t generalizing r with
  | leaf n c =>
    obtain ⟨hr, hcov, hdis⟩ := h
    exact ⟨hr, fun hc => (hcov hc).trans Set.subset_union_left,
      fun hc => Set.disjoint_union_right.mpr ⟨hdis hc, hC⟩⟩
  | node n c l rt ihl ihr =>
    obtain ⟨hr, hcov, hkids⟩ := h
    refine ⟨hr, fun hc => (hcov hc).trans Set.subset_union_left, fun hc => ?_⟩
    obtain ⟨hboth, hl, hrt, tl, trt⟩ := hkids hc
    have hsplit := residueClass_split hr
    refine ⟨hboth, hl, hrt, ihl tl ?_, ihr trt ?_⟩
    · rw [hl]
      exact hC.mono_left (hsplit ▸ Set.subset_union_left)
    · rw [hrt]
      exact hC.mono_left (hsplit ▸ Set.subset_union_right)

/-- The children of a node not covered, after `push_down`, track its two
halves. -/
theorem Tracks.pushDown {t : ShardSegmentTreeNode} {r : Nat} (h : Tracks S t r) (hc : t.covered = false) :
    Tracks S t.pushDown.1 r ∧ Tracks S t.pushDown.2 (r + t.numShard) ∧
      t.pushDown.1.numShard = 2 * t.numShard ∧ t.pushDown.2.numShard = 2 * t.numShard := by
  cases t with
  | leaf n c =>
    simp only [covered] at hc
    subst hc
    obtain ⟨hr, -, hdis⟩ := h
    have hdis := hdis rfl
    rw [residueClass_split hr, Set.disjoint_union_left] at hdis
    have hshift : n <<< 1 = 2 * n := by rw [Nat.shiftLeft_eq]; omega
    -- the two new leaves, of `num_shard` `2 * n`, meet `S` nowhere
    refine ⟨⟨?_, fun h => absurd h (by decide), fun _ => ?_⟩,
      ⟨?_, fun h => absurd h (by decide), fun _ => ?_⟩, hshift, hshift⟩
    · show r < n <<< 1
      rw [hshift]
      omega
    · show Disjoint (residueClass (n <<< 1) r) S
      rw [hshift]
      exact hdis.1
    · show r + n < n <<< 1
      rw [hshift]
      omega
    · show Disjoint (residueClass (n <<< 1) (r + n)) S
      rw [hshift]
      exact hdis.2
  | node n c l rt =>
    simp only [covered] at hc
    subst hc
    obtain ⟨-, -, hkids⟩ := h
    obtain ⟨-, hl, hrt, tl, trt⟩ := hkids rfl
    exact ⟨tl, trt, hl, hrt⟩

/-- `update` over two children tracking the halves of a residue tracks the
residue. -/
theorem tracks_update {n r : Nat} {l rt : ShardSegmentTreeNode} (hr : r < n) (tl : Tracks S l r)
    (trt : Tracks S rt (r + n)) (hl : l.numShard = 2 * n) (hrt : rt.numShard = 2 * n) :
    Tracks S (update n l rt) r := by
  refine ⟨hr, fun hc => ?_, fun hc => ⟨hc, hl, hrt, tl, trt⟩⟩
  simp only [Bool.and_eq_true] at hc
  have hlS := tl.covered_iff.mp hc.1
  have hrS := trt.covered_iff.mp hc.2
  rw [hl] at hlS
  rw [hrt] at hrS
  rw [residueClass_split hr]
  exact Set.union_subset hlS hrS

/-! ### One insertion, and the loop -/

/-- Below a node of `num_shard` `n`, the bits of a `shard_id` past the
node's: the next one picks the child, the rest go down with it. -/
theorem mul_shardId_split (n j : Nat) : n * j = n * (j % 2) + 2 * n * (j >>> 1) := by
  rw [Nat.shiftRight_eq_div_pow, Nat.pow_one]
  conv_lhs => rw [← Nat.mod_add_div j 2]
  rw [Nat.mul_add, Nat.mul_assoc, Nat.mul_left_comm n 2]

/-- A configuration of `num_shard` a power of two times `n`, other than
`n`, has it a power of two times `2 * n`. -/
theorem exists_pow_of_ne {N n : Nat} (hN : ∃ e, N = n * 2 ^ e) (hne : N ≠ n) :
    ∃ e, N = 2 * n * 2 ^ e := by
  obtain ⟨e, rfl⟩ := hN
  cases e with
  | zero => simp at hne
  | succ e => exact ⟨e, by rw [Nat.pow_succ']; ring⟩

/-- The segments of a configuration below a node of `num_shard` `n` and
residue `r` lie in the half its next bit picks. -/
theorem residueClass_subset_half {n r j N : Nat} (hr : r < n) (hdvd : 2 * n ∣ N) :
    residueClass N (r + n * j) ⊆ residueClass (2 * n) (r + n * (j % 2)) := by
  have ha : r + n * (j % 2) < 2 * n := by
    rcases Nat.mod_two_eq_zero_or_one j with h | h <;> rw [h] <;> omega
  have hmod : (r + n * j) % (2 * n) = r + n * (j % 2) := by
    rw [mul_shardId_split n j, ← Nat.add_assoc, Nat.add_mul_mod_self_left, Nat.mod_eq_of_lt ha]
  exact hmod ▸ residueClass_subset hdvd

/-- `insert` of a configuration of `num_shard` `N`, a power of two times the
node's `n`, and of `shard_id` `r + n * j` at the node standing for the
residue `r` (`j` holds the bits of the `shard_id` below the node): the node
then tracks `S` with the configuration's segments. The induction follows
`insert`: the configuration is marked at the node of its own `num_shard`,
and every node on the way is updated from its two children. -/
theorem Tracks.insert {t : ShardSegmentTreeNode} {r N j : Nat} (h : Tracks S t r)
    (hN : ∃ e, N = t.numShard * 2 ^ e) (hid : r + t.numShard * j < N) :
    Tracks (S ∪ residueClass N (r + t.numShard * j)) (t.insert N j) r := by
  induction t, j using ShardSegmentTreeNode.insert.induct N generalizing r with
  | case1 t j hc =>
    rw [ShardSegmentTreeNode.insert, if_pos hc]
    exact tracks_of_covered h.lt hc ((h.covered_iff.mp hc).trans Set.subset_union_left)
  | case2 t j hc heq =>
    -- the configuration is this node's residue: `j = 0`
    have hj : j = 0 := by
      by_contra hj
      have := Nat.le_mul_of_pos_right t.numShard (Nat.pos_of_ne_zero hj)
      omega
    subst hj
    rw [ShardSegmentTreeNode.insert, if_neg hc, if_pos heq]
    refine tracks_of_covered (by simpa using h.lt) (covered_markCovered t) ?_
    rw [numShard_markCovered, Nat.mul_zero, Nat.add_zero, ← heq]
    exact Set.subset_union_right
  | case3 t j hc hne hguard =>
    obtain ⟨e, he⟩ := hN
    have hle : t.numShard ≤ N := he ▸ Nat.le_mul_of_pos_right _ (Nat.two_pow_pos e)
    have := h.lt
    omega
  | case4 t j hc hne hguard heven ih =>
    have hc' : t.covered = false := by simpa using hc
    obtain ⟨tl, trt, hl, hrt⟩ := h.pushDown hc'
    obtain ⟨e, he⟩ := exists_pow_of_ne hN hne
    have hsplit := mul_shardId_split t.numShard j
    rw [heven, Nat.mul_zero, Nat.zero_add] at hsplit
    -- the left child goes on with the bits past this one
    have hl' := ih tl ⟨e, by rw [hl, he]⟩ (by rw [hl, ← hsplit]; exact hid)
    rw [hl, ← hsplit] at hl'
    have hC : residueClass N (r + t.numShard * j) ⊆ residueClass (2 * t.numShard) r := by
      simpa [heven] using residueClass_subset_half (j := j) h.lt ⟨2 ^ e, he⟩
    have hrt' := trt.union (C := residueClass N (r + t.numShard * j))
      (by rw [hrt]; exact (disjoint_residueClass (by have := h.lt; omega)).mono_right hC)
    rw [ShardSegmentTreeNode.insert, if_neg hc, if_neg hne, dif_neg hguard, if_pos heven]
    exact tracks_update h.lt hl' hrt' (by rw [numShard_insert, hl]) hrt
  | case5 t j hc hne hguard hodd ih =>
    have hc' : t.covered = false := by simpa using hc
    obtain ⟨tl, trt, hl, hrt⟩ := h.pushDown hc'
    obtain ⟨e, he⟩ := exists_pow_of_ne hN hne
    have hsplit := mul_shardId_split t.numShard j
    rw [Nat.mod_two_ne_zero.mp hodd, Nat.mul_one] at hsplit
    have hsplit' : r + t.numShard * j = r + t.numShard + 2 * t.numShard * (j >>> 1) := by
      rw [hsplit, Nat.add_assoc]
    -- the right child, of residue `r + n`, goes on with the bits past this one
    have hr' := ih trt ⟨e, by rw [hrt, he]⟩ (by rw [hrt, ← hsplit']; exact hid)
    rw [hrt, ← hsplit'] at hr'
    have hC : residueClass N (r + t.numShard * j) ⊆ residueClass (2 * t.numShard) (r + t.numShard) := by
      simpa [Nat.mod_two_ne_zero.mp hodd] using residueClass_subset_half (j := j) h.lt ⟨2 ^ e, he⟩
    have hl' := tl.union (C := residueClass N (r + t.numShard * j))
      (by rw [hl]; exact (disjoint_residueClass (by have := h.lt; omega)).mono_right hC)
    rw [ShardSegmentTreeNode.insert, if_neg hc, if_neg hne, dif_neg hguard, if_neg hodd]
    exact tracks_update h.lt hl' hr' hl (by rw [numShard_insert, hrt])

end ShardSegmentTreeNode

/-- The loop of `all_shards_available` from a root. -/
def allShardsAvailableLoop (root : ShardSegmentTreeNode) : List ShardConfig → Bool
  | [] => false
  | c :: cs =>
    match c.validate with
    | .error _ => allShardsAvailableLoop root cs
    | .ok () =>
      let root := root.insert c.numShard c.shardId
      if root.covered then true else allShardsAvailableLoop root cs

/-- `all_shards_available`: configurations that do not validate are
skipped, and the answer is `true` as soon as the root is covered. -/
def allShardsAvailable (shardConfigs : List ShardConfig) : Bool :=
  allShardsAvailableLoop (ShardSegmentTreeNode.new 1) shardConfigs

open ShardSegmentTreeNode in
/-- The loop from a root not covered that tracks `S`: it answers `true`
exactly when `S` and the valid configurations still to come cover every
segment. -/
theorem allShardsAvailableLoop_iff {S : Set Nat} {root : ShardSegmentTreeNode} (h : Tracks S root 0)
    (h1 : root.numShard = 1) (hc : root.covered = false) (cs : List ShardConfig) :
    allShardsAvailableLoop root cs = true ↔
      ∀ s, s ∈ S ∨ ∃ c ∈ cs, c.validate = .ok () ∧ c.inRange s = true := by
  induction cs generalizing S root with
  | nil =>
    -- the root is not covered: a segment is missing from `S`
    have hnot : ¬ residueClass 1 0 ⊆ S := by
      rw [← h1, ← h.covered_iff, hc]
      decide
    simp only [allShardsAvailableLoop, Bool.false_eq_true, false_iff, List.not_mem_nil,
      false_and, exists_false, or_false]
    exact fun hall => hnot fun s _ => hall s
  | cons c cs ih =>
    rw [allShardsAvailableLoop]
    split
    · -- a configuration that does not validate is skipped
      rename_i e hv
      rw [ih h h1 hc]
      simp [hv]
    · rename_i hv
      obtain ⟨hid, k, hk⟩ := ShardConfig.validate_eq_ok hv
      have hins := h.insert (N := c.numShard) (j := c.shardId) ⟨k, by rw [h1, hk, Nat.one_mul]⟩
        (by rw [h1]; omega)
      rw [h1, Nat.zero_add, Nat.one_mul] at hins
      -- the configuration's segments are its residue
      have hC : ∀ s, s ∈ residueClass c.numShard c.shardId ↔ c.inRange s = true := by
        intro s
        simp [ShardConfig.inRange]
      have hstep : ∀ s, (s ∈ S ∪ residueClass c.numShard c.shardId ∨
          ∃ c' ∈ cs, c'.validate = .ok () ∧ c'.inRange s = true) ↔
          (s ∈ S ∨ ∃ c' ∈ c :: cs, c'.validate = .ok () ∧ c'.inRange s = true) := by
        intro s
        simp only [Set.mem_union, hC, List.mem_cons, exists_eq_or_imp, hv, true_and]
        tauto
      dsimp only
      split
      · rename_i hcov
        have hall := hins.covered_iff.mp hcov
        rw [numShard_insert, h1] at hall
        simp only [true_iff]
        exact fun s => (hstep s).mp (.inl (hall (Nat.mod_one s)))
      · rename_i hcov
        rw [ih hins (by rw [numShard_insert, h1]) (by simpa using hcov)]
        exact forall_congr' hstep

/-- `all_shards_available` decides coverage: it is `true` exactly when every
segment is in the range of a valid configuration of the list. -/
theorem allShardsAvailable_iff (shardConfigs : List ShardConfig) :
    allShardsAvailable shardConfigs = true ↔
      ∀ s, ∃ c ∈ shardConfigs, c.validate = .ok () ∧ c.inRange s = true := by
  have hroot : ShardSegmentTreeNode.Tracks ∅ (ShardSegmentTreeNode.new 1) 0 :=
    ⟨by decide, fun h => absurd h (by decide), fun _ => Set.disjoint_empty _⟩
  rw [allShardsAvailable, allShardsAvailableLoop_iff hroot rfl rfl]
  simp

end ZgStorage

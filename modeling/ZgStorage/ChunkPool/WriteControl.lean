import ZgStorage.Storage.Config
import ZgStorage.Framework.SortedMap

/-!
# The upload window of a file

`chunk_write_control.rs`: the segments of a file are uploaded concurrently,
each by `write_segment` and then `on_write_succeeded` or `on_write_failed`.
The file's `CtrlWindow` keeps a slot for each segment in writing or written
past `left_boundary`, the first segment of the node's shard not written:
when that one is written, `finish_writing` moves the boundary on, past the
written slots, by `next_segment_index`.

`Uploads` is a run of calls on one file, with the segments it wrote and is
writing; `WindowInv` is what the window knows of them.

* `Uploads.poolInv`: along every run, the file's window keeps `WindowInv`;
* `Uploads.window_spec`: `left_boundary` is the first segment of the shard
  not written, `check_duplicate` holds of a segment of the shard exactly
  when it is written or in writing, and `on_write_succeeded` answers whether
  every segment of the shard that starts `num_shard` or more before
  `total_segments` is written;
* `onWriteSucceeded_before_last_segment`: so it answers `true` while the
  last segment of the shard below `total_segments` is not written, when that
  one starts less than `num_shard` before the end.
-/

namespace ZgStorage

namespace ChunkPool

/-- `TxID`. -/
structure TxID where
  seq : Nat
  hash : H256
  deriving DecidableEq

/-- `FileID`. -/
structure FileID where
  root : H256
  txId : TxID
  deriving DecidableEq

/-- `SlotStatus`. -/
inductive SlotStatus where
  | writing
  | finished
  deriving DecidableEq

/-- `CtrlWindow`, without its `size`, which nothing reads; the slots are a
map from segment index. -/
structure CtrlWindow where
  txStartIndex : Nat
  shardConfig : ShardConfig
  leftBoundary : Nat
  slots : List (Nat × SlotStatus)

namespace CtrlWindow

/-- `CtrlWindow::new`. -/
def new (shardConfig : ShardConfig) (txStartIndex : Nat) : CtrlWindow :=
  ⟨txStartIndex, shardConfig, shardConfig.nextSegmentIndex 0 txStartIndex % shardConfig.numShard, []⟩

/-- `check_duplicate`. -/
def checkDuplicate (w : CtrlWindow) (index : Nat) : Bool :=
  index < w.leftBoundary || (SortedMap.get? w.slots index).isSome

/-- `start_writing`. -/
def startWriting (w : CtrlWindow) (index : Nat) : Except Error CtrlWindow :=
  if index < w.leftBoundary then .error (.panic "assertion failed: index >= self.left_boundary")
  else if (SortedMap.get? w.slots index).isSome then
    .error (.panic "assertion failed: !self.slots.contains_key(&index)")
  else .ok { w with slots := SortedMap.insert w.slots index .writing }

/-- `rollback_writing`. -/
def rollbackWriting (w : CtrlWindow) (index : Nat) : Except Error CtrlWindow :=
  if SortedMap.get? w.slots index = some .writing then .ok { w with slots := SortedMap.erase w.slots index }
  else .error (.panic "assertion failed: left == right")

/-- The loop of `finish_writing`: while the slot at the boundary is finished,
remove it and move the boundary to the next segment of the shard. -/
def advance (shardConfig : ShardConfig) (txStartIndex : Nat) (slots : List (Nat × SlotStatus))
    (leftBoundary : Nat) : List (Nat × SlotStatus) × Nat :=
  if _h : SortedMap.get? slots leftBoundary = some .finished then
    advance shardConfig txStartIndex (SortedMap.erase slots leftBoundary)
      (shardConfig.nextSegmentIndex leftBoundary txStartIndex)
  else (slots, leftBoundary)
termination_by slots.length
decreasing_by exact SortedMap.length_erase_lt _h

/-- `finish_writing`. -/
def finishWriting (w : CtrlWindow) (index : Nat) : Except Error CtrlWindow :=
  if SortedMap.get? w.slots index = some .writing then
    let moved := advance w.shardConfig w.txStartIndex (SortedMap.insert w.slots index .finished) w.leftBoundary
    .ok { w with slots := moved.1, leftBoundary := moved.2 }
  else .error (.panic "assertion failed: left == right")

end CtrlWindow

/-- `FileWriteCtrl`. -/
structure FileWriteCtrl where
  id : FileID
  totalSegments : Nat
  window : CtrlWindow

/-- `FileWriteCtrl::new`, without the window size. -/
def FileWriteCtrl.new (id : FileID) (totalSegments : Nat) (shardConfig : ShardConfig) (txStartIndex : Nat) :
    FileWriteCtrl :=
  ⟨id, totalSegments, CtrlWindow.new shardConfig txStartIndex⟩

/-- `uploaded_seg_num`. -/
def FileWriteCtrl.uploadedSegNum (f : FileWriteCtrl) : Nat := f.window.leftBoundary

/-- The fields of the pool's `Config` the write control reads. -/
structure Config where
  maxWritings : Nat
  shardConfig : ShardConfig

/-- `ChunkPoolWriteCtrl`; its map of files is a function of the data root. -/
structure ChunkPoolWriteCtrl where
  config : Config
  files : H256 → Option FileWriteCtrl
  totalWritings : Nat

namespace ChunkPoolWriteCtrl

/-- `ChunkPoolWriteCtrl::new`. -/
def new (config : Config) : ChunkPoolWriteCtrl := ⟨config, fun _ => none, 0⟩

/-- `get_file`. -/
def getFile (c : ChunkPoolWriteCtrl) (root : H256) : Option FileWriteCtrl := c.files root

/-- `remove_file`. -/
def removeFile (c : ChunkPoolWriteCtrl) (root : H256) : ChunkPoolWriteCtrl × Option FileWriteCtrl :=
  ({ c with files := Function.update c.files root none }, c.files root)

/-- `write_segment`: the pool after the call, and what it returns. The file
is entered before the checks, and stays when one of them bails. -/
def writeSegment (c : ChunkPoolWriteCtrl) (id : FileID) (segIndex totalSegments txStartIndex : Nat) :
    ChunkPoolWriteCtrl × Except Error Unit :=
  let fileCtrl := (c.files id.root).getD (FileWriteCtrl.new id totalSegments c.config.shardConfig txStartIndex)
  let c := { c with files := Function.update c.files id.root (some fileCtrl) }
  if fileCtrl.id ≠ id then
    ({ c with files := Function.update c.files id.root none },
      .error (.bail "Transaction reverted when uploading segments, please try again"))
  else if fileCtrl.totalSegments ≠ totalSegments then
    (c, .error (.bail ("file size in segment doesn't match with file size declared in previous segment. " ++
      "Previous total segments:" ++ toString fileCtrl.totalSegments ++ ", current total segments:" ++
      toString totalSegments)))
  else if fileCtrl.window.checkDuplicate segIndex then
    (c, .error (.bail "segment has already been uploaded or is being uploaded"))
  else if c.totalWritings ≥ c.config.maxWritings then
    (c, .error (.bail ("too many data writing: " ++ toString c.config.maxWritings)))
  else
    match fileCtrl.window.startWriting segIndex with
    | .error e => (c, .error e)
    | .ok window =>
      ({ c with
          files := Function.update c.files id.root (some { fileCtrl with window := window })
          totalWritings := c.totalWritings + 1 }, .ok ())

/-- `on_write_succeeded`: whether the file is now all written, as the source
decides it, from the boundary and the shard count. -/
def onWriteSucceeded (c : ChunkPoolWriteCtrl) (root : H256) (segIndex : Nat) :
    ChunkPoolWriteCtrl × Except Error Bool :=
  match c.files root with
  | none => (c, .ok false)
  | some fileCtrl =>
    match fileCtrl.window.finishWriting segIndex with
    | .error e => (c, .error e)
    | .ok window =>
      let fileCtrl := { fileCtrl with window := window }
      let c := { c with files := Function.update c.files root (some fileCtrl) }
      if c.totalWritings = 0 then (c, .error (.panic "assertion failed: self.total_writings > 0"))
      else ({ c with totalWritings := c.totalWritings - 1 },
        .ok (decide (fileCtrl.window.leftBoundary + c.config.shardConfig.numShard > fileCtrl.totalSegments)))

/-- `on_write_failed`. -/
def onWriteFailed (c : ChunkPoolWriteCtrl) (root : H256) (segIndex : Nat) :
    ChunkPoolWriteCtrl × Except Error Unit :=
  match c.files root with
  | none => (c, .ok ())
  | some fileCtrl =>
    match fileCtrl.window.rollbackWriting segIndex with
    | .error e => (c, .error e)
    | .ok window =>
      let c := { c with files := Function.update c.files root (some { fileCtrl with window := window }) }
      if c.totalWritings = 0 then (c, .error (.panic "assertion failed: self.total_writings > 0"))
      else ({ c with totalWritings := c.totalWritings - 1 }, .ok ())

/-- `update_shard_config`. -/
def updateShardConfig (c : ChunkPoolWriteCtrl) (shardConfig : ShardConfig) : ChunkPoolWriteCtrl :=
  { c with
    files := fun root => (c.files root).map fun f => { f with window := { f.window with shardConfig := shardConfig } }
    config := { c.config with shardConfig := shardConfig } }

end ChunkPoolWriteCtrl

/-- A segment of the file is in the node's shard. -/
def InShard (shardConfig : ShardConfig) (txStartIndex i : Nat) : Prop :=
  shardConfig.inRange (txStartIndex + i) = true

instance (shardConfig : ShardConfig) (txStartIndex i : Nat) : Decidable (InShard shardConfig txStartIndex i) :=
  inferInstanceAs (Decidable (_ = true))

namespace CtrlWindow

theorem advance_of_finished {c : ShardConfig} {st lb : Nat} {slots : List (Nat × SlotStatus)}
    (h : SortedMap.get? slots lb = some .finished) :
    advance c st slots lb = advance c st (SortedMap.erase slots lb) (c.nextSegmentIndex lb st) := by
  rw [advance, dif_pos h]

theorem advance_of_not_finished {c : ShardConfig} {st lb : Nat} {slots : List (Nat × SlotStatus)}
    (h : SortedMap.get? slots lb ≠ some .finished) : advance c st slots lb = (slots, lb) := by
  rw [advance, dif_neg h]

/-- What slots and a boundary know of the segments written and in writing,
between calls and inside the loop of `finish_writing`: the boundary is a
segment of the shard and each one of the shard below it is written; the
slots in writing are the segments in writing, and the finished ones the
written segments from the boundary on. -/
structure Knows (c : ShardConfig) (st : Nat) (slots : List (Nat × SlotStatus)) (lb : Nat)
    (written writing : Set Nat) : Prop where
  inShard : InShard c st lb
  below : ∀ i < lb, InShard c st i → i ∈ written
  writing_iff : ∀ i, SortedMap.get? slots i = some .writing ↔ i ∈ writing
  finished_iff : ∀ i, SortedMap.get? slots i = some .finished ↔ i ∈ written ∧ lb ≤ i
  written_inShard : ∀ i ∈ written, InShard c st i
  writing_inShard : ∀ i ∈ writing, InShard c st i
  disjoint : ∀ i ∈ writing, i ∉ written

/-- Between calls, the boundary itself is not written. -/
structure WindowInv (w : CtrlWindow) (written writing : Set Nat) : Prop
    extends Knows w.shardConfig w.txStartIndex w.slots w.leftBoundary written writing where
  not_written : w.leftBoundary ∉ written

variable {c : ShardConfig} {st lb : Nat} {slots : List (Nat × SlotStatus)} {W V : Set Nat}

/-- A segment in writing is at or past the boundary. -/
theorem Knows.le_of_writing (h : Knows c st slots lb W V) {i : Nat} (hi : i ∈ V) : lb ≤ i :=
  Nat.le_of_not_lt fun hlt => h.disjoint i hi (h.below i hlt (h.writing_inShard i hi))

/-- One turn of the loop of `finish_writing`: the finished slot at the
boundary goes, and the boundary moves to the next segment of the shard, past
segments of other shards, none of them written. -/
theorem Knows.step (hv : c.validate = .ok ()) (h : Knows c st slots lb W V)
    (hf : SortedMap.get? slots lb = some .finished) :
    Knows c st (SortedMap.erase slots lb) (c.nextSegmentIndex lb st) W V := by
  obtain ⟨hlt, hin, hgap⟩ := ShardConfig.nextSegmentIndex_spec hv lb st
  have hlbW : lb ∈ W := ((h.finished_iff lb).mp hf).1
  -- no segment strictly between the two boundaries is of the shard
  have hgapW : ∀ i, lb < i → i < c.nextSegmentIndex lb st → i ∉ W := fun i h₁ h₂ hi => by
    have := h.written_inShard i hi
    rw [InShard, hgap i h₁ h₂] at this
    exact Bool.false_ne_true this
  refine ⟨hin, fun i hi hs => ?_, fun i => ?_, fun i => ?_, h.written_inShard, h.writing_inShard, h.disjoint⟩
  · rcases Nat.lt_trichotomy i lb with hi' | rfl | hi'
    · exact h.below i hi' hs
    · exact hlbW
    · rw [InShard, hgap i hi' hi] at hs
      exact absurd hs Bool.false_ne_true
  · rw [SortedMap.get?_erase]
    split_ifs with hi
    · subst hi
      exact ⟨fun h' => absurd h' (by simp), fun hV => absurd hlbW (h.disjoint _ hV)⟩
    · exact h.writing_iff i
  · rw [SortedMap.get?_erase]
    split_ifs with hi
    · subst hi
      simp only [false_iff, not_and, not_le]
      exact fun _ => hlt
    · rw [h.finished_iff i]
      refine and_congr_right fun hiW => ⟨fun hle => ?_, fun hle => by omega⟩
      by_contra hnot
      exact hgapW i (by omega) (by omega) hiW

/-- The loop of `finish_writing` stops at a boundary that is not written,
knowing what it knew. The induction follows `advance`. -/
theorem Knows.advance (hv : c.validate = .ok ()) (h : Knows c st slots lb W V) :
    Knows c st (CtrlWindow.advance c st slots lb).1 (CtrlWindow.advance c st slots lb).2 W V ∧
      (CtrlWindow.advance c st slots lb).2 ∉ W := by
  induction slots, lb using CtrlWindow.advance.induct c st with
  | case1 slots lb hf ih =>
    rw [advance_of_finished hf]
    exact ih (h.step hv hf)
  | case2 slots lb hnf =>
    rw [advance_of_not_finished hnf]
    exact ⟨h, fun hW => hnf ((h.finished_iff lb).mpr ⟨hW, Nat.le_refl lb⟩)⟩

/-- A new window: its boundary is the first segment of the shard. -/
theorem windowInv_new (hv : c.validate = .ok ()) (st : Nat) : WindowInv (new c st) ∅ ∅ := by
  obtain ⟨hpos, hin, hgap⟩ := ShardConfig.nextSegmentIndex_spec hv 0 st
  obtain ⟨hid, -⟩ := ShardConfig.validate_eq_ok hv
  have hle : c.nextSegmentIndex 0 st ≤ c.numShard := by
    simp only [ShardConfig.nextSegmentIndex]
    omega
  -- the boundary is the first segment of the shard: no segment below it is
  have hfirst : InShard c st (new c st).leftBoundary ∧ ∀ i < (new c st).leftBoundary, ¬ InShard c st i := by
    simp only [new, InShard]
    rcases Nat.lt_or_ge (c.nextSegmentIndex 0 st) c.numShard with hlt | hge
    · rw [Nat.mod_eq_of_lt hlt]
      refine ⟨hin, fun i hi hs => ?_⟩
      rcases Nat.eq_zero_or_pos i with rfl | hi0
      · have := ShardConfig.inRange_add_of_lt hv hs hpos hlt
        rw [Nat.add_zero, hin] at this
        exact Bool.false_ne_true this.symm
      · rw [hgap i hi0 hi] at hs
        exact Bool.false_ne_true hs
    · rw [show c.nextSegmentIndex 0 st = c.numShard by omega, Nat.mod_self]
      refine ⟨?_, fun i hi => absurd hi (Nat.not_lt_zero i)⟩
      rw [show c.nextSegmentIndex 0 st = c.numShard by omega] at hin
      simpa [ShardConfig.inRange, Nat.add_mod_right] using hin
  exact ⟨⟨hfirst.1, fun i hi hs => absurd hs (hfirst.2 i hi), by simp [new], by simp [new], by simp, by simp,
    by simp⟩, by simp⟩

/-- `check_duplicate` holds of a segment of the shard exactly when it is
written or in writing. -/
theorem WindowInv.checkDuplicate_iff {w : CtrlWindow} (h : WindowInv w W V) {i : Nat}
    (hi : InShard w.shardConfig w.txStartIndex i) : w.checkDuplicate i = true ↔ i ∈ W ∨ i ∈ V := by
  rw [checkDuplicate, Bool.or_eq_true, decide_eq_true_eq, Option.isSome_iff_exists]
  constructor
  · rintro (hlt | ⟨s, hs⟩)
    · exact .inl (h.below i hlt hi)
    · cases s with
      | writing => exact .inr ((h.writing_iff i).mp hs)
      | finished => exact .inl ((h.finished_iff i).mp hs).1
  · rintro (hW | hV)
    · by_cases hlt : i < w.leftBoundary
      · exact .inl hlt
      · exact .inr ⟨_, (h.finished_iff i).mpr ⟨hW, Nat.le_of_not_lt hlt⟩⟩
    · exact .inr ⟨_, (h.writing_iff i).mpr hV⟩

/-- `start_writing` of a segment of the shard that is not a duplicate. -/
theorem WindowInv.startWriting {w : CtrlWindow} (h : WindowInv w W V) {i : Nat}
    (hi : InShard w.shardConfig w.txStartIndex i) (hd : w.checkDuplicate i = false) :
    w.startWriting i = .ok { w with slots := SortedMap.insert w.slots i .writing } ∧
      WindowInv { w with slots := SortedMap.insert w.slots i .writing } W (insert i V) := by
  have hnot : i ∉ W ∧ i ∉ V := by
    rw [← not_or, ← h.checkDuplicate_iff hi, hd]
    exact Bool.false_ne_true
  simp only [checkDuplicate, Bool.or_eq_false_iff, decide_eq_false_iff_not, Option.isSome_eq_false_iff,
    Option.isNone_iff_eq_none] at hd
  refine ⟨by rw [CtrlWindow.startWriting, if_neg hd.1, if_neg (by simp [hd.2])], ?_⟩
  refine ⟨⟨h.inShard, h.below, fun j => ?_, fun j => ?_, h.written_inShard, ?_, ?_⟩, h.not_written⟩
  · rw [SortedMap.get?_insert, Set.mem_insert_iff]
    by_cases hj : i = j
    · simp [hj]
    · simp [hj, Ne.symm hj, h.writing_iff j]
  · rw [SortedMap.get?_insert]
    by_cases hj : i = j
    · subst hj
      simp [hnot.1]
    · simp [hj, h.finished_iff j]
  · rintro j (rfl | hj)
    · exact hi
    · exact h.writing_inShard j hj
  · rintro j (rfl | hj)
    · exact hnot.1
    · exact h.disjoint j hj

/-- `rollback_writing` returns only for a segment in writing, and drops it. -/
theorem WindowInv.rollbackWriting {w w' : CtrlWindow} (h : WindowInv w W V) {i : Nat}
    (hr : w.rollbackWriting i = .ok w') :
    i ∈ V ∧ WindowInv w' W (V \ {i}) ∧ w'.shardConfig = w.shardConfig ∧ w'.txStartIndex = w.txStartIndex := by
  rw [CtrlWindow.rollbackWriting] at hr
  split at hr
  · rename_i hw
    cases hr
    have hiV := (h.writing_iff i).mp hw
    refine ⟨hiV, ⟨⟨h.inShard, h.below, fun j => ?_, fun j => ?_, h.written_inShard,
      fun j hj => h.writing_inShard j hj.1, fun j hj => h.disjoint j hj.1⟩, h.not_written⟩, rfl, rfl⟩
    · rw [SortedMap.get?_erase]
      by_cases hj : i = j
      · subst hj
        simp
      · simp [hj, Ne.symm hj, h.writing_iff j]
    · rw [SortedMap.get?_erase]
      by_cases hj : i = j
      · subst hj
        simp [h.disjoint i hiV]
      · simp [hj, h.finished_iff j]
  · cases hr

/-- `finish_writing` returns only for a segment in writing; it is then
written, and the window knows it, its boundary moved past it if it was
there. -/
theorem WindowInv.finishWriting {w w' : CtrlWindow} (hv : w.shardConfig.validate = .ok ()) (h : WindowInv w W V)
    {i : Nat} (hf : w.finishWriting i = .ok w') :
    i ∈ V ∧ WindowInv w' (insert i W) (V \ {i}) ∧ w'.shardConfig = w.shardConfig ∧
      w'.txStartIndex = w.txStartIndex := by
  rw [CtrlWindow.finishWriting] at hf
  split at hf
  · rename_i hw
    cases hf
    have hiV := (h.writing_iff i).mp hw
    have hle := h.le_of_writing hiV
    -- the slot finished, before the loop
    have hk : Knows w.shardConfig w.txStartIndex (SortedMap.insert w.slots i .finished) w.leftBoundary
        (insert i W) (V \ {i}) := by
      refine ⟨h.inShard, fun j hj hs => Set.mem_insert_of_mem i (h.below j hj hs), fun j => ?_, fun j => ?_,
        ?_, fun j hj => h.writing_inShard j hj.1, ?_⟩
      · rw [SortedMap.get?_insert]
        by_cases hj : i = j
        · subst hj
          simp
        · simp [hj, Ne.symm hj, h.writing_iff j]
      · rw [SortedMap.get?_insert]
        by_cases hj : i = j
        · subst hj
          simp [hle]
        · simp [hj, Ne.symm hj, h.finished_iff j]
      · rintro j (rfl | hj)
        · exact h.writing_inShard j hiV
        · exact h.written_inShard j hj
      · rintro j ⟨hjV, hji⟩ (rfl | hjW)
        · exact hji rfl
        · exact h.disjoint j hjV hjW
    obtain ⟨hk', hnot⟩ := hk.advance hv
    exact ⟨hiV, ⟨hk', hnot⟩, rfl, rfl⟩
  · cases hf

end CtrlWindow

/-! ### The calls on one file -/

section OneFile

variable (config : Config) (id : FileID) (totalSegments txStartIndex : Nat)

/-- The runs of calls on one file, from a pool with no file, with the
segments written (`on_write_succeeded` of the file returned) and in writing
(`write_segment` returned `Ok`, and no `on_write_*` of it since). A call that
panics ends the run. -/
inductive Uploads : ChunkPoolWriteCtrl → Set Nat → Set Nat → Prop
  | new : Uploads (ChunkPoolWriteCtrl.new config) ∅ ∅
  | writeSegment {c c' : ChunkPoolWriteCtrl} {W V : Set Nat} {i : Nat} :
      Uploads c W V → InShard config.shardConfig txStartIndex i →
      c.writeSegment id i totalSegments txStartIndex = (c', .ok ()) → Uploads c' W (insert i V)
  | writeSegmentBail {c c' : ChunkPoolWriteCtrl} {W V : Set Nat} {i : Nat} {msg : String} :
      Uploads c W V → InShard config.shardConfig txStartIndex i →
      c.writeSegment id i totalSegments txStartIndex = (c', .error (.bail msg)) → Uploads c' W V
  | onWriteSucceeded {c c' : ChunkPoolWriteCtrl} {W V : Set Nat} {i : Nat} {b : Bool} :
      Uploads c W V → (c.files id.root).isSome →
      c.onWriteSucceeded id.root i = (c', .ok b) → Uploads c' (insert i W) (V \ {i})
  | onWriteSucceededNone {c c' : ChunkPoolWriteCtrl} {W V : Set Nat} {i : Nat} {b : Bool} :
      Uploads c W V → c.files id.root = none →
      c.onWriteSucceeded id.root i = (c', .ok b) → Uploads c' W V
  | onWriteFailed {c c' : ChunkPoolWriteCtrl} {W V : Set Nat} {i : Nat} :
      Uploads c W V → c.onWriteFailed id.root i = (c', .ok ()) → Uploads c' W (V \ {i})

/-- The file's control: of the file, and its window of the configuration. -/
structure FileOf (f : FileWriteCtrl) (W V : Set Nat) : Prop where
  id_eq : f.id = id
  totalSegments_eq : f.totalSegments = totalSegments
  shardConfig_eq : f.window.shardConfig = config.shardConfig
  txStartIndex_eq : f.window.txStartIndex = txStartIndex
  window : CtrlWindow.WindowInv f.window W V

/-- The pool along a run on one file: its configuration, and the file's
control once a call entered it, nothing written before. -/
structure PoolInv (c : ChunkPoolWriteCtrl) (W V : Set Nat) : Prop where
  config_eq : c.config = config
  none_empty : c.files id.root = none → W = ∅ ∧ V = ∅
  some_file : ∀ f, c.files id.root = some f → FileOf config id totalSegments txStartIndex f W V

variable {config id totalSegments txStartIndex}
variable {c c' : ChunkPoolWriteCtrl} {W V : Set Nat} {i : Nat}

/-- The control `write_segment` works on is the file's. -/
theorem PoolInv.fileOf_getD (hv : config.shardConfig.validate = .ok ())
    (h : PoolInv config id totalSegments txStartIndex c W V) :
    FileOf config id totalSegments txStartIndex
      ((c.files id.root).getD (FileWriteCtrl.new id totalSegments c.config.shardConfig txStartIndex)) W V := by
  cases hf : c.files id.root with
  | none =>
    obtain ⟨rfl, rfl⟩ := h.none_empty hf
    rw [h.config_eq]
    exact ⟨rfl, rfl, rfl, rfl, CtrlWindow.windowInv_new hv txStartIndex⟩
  | some f => exact h.some_file f hf

/-- A pool of the configuration that holds the file's control. -/
theorem poolInv_of_file {f : FileWriteCtrl} (hc : c.config = config) (hf : c.files id.root = some f)
    (hF : FileOf config id totalSegments txStartIndex f W V) : PoolInv config id totalSegments txStartIndex c W V :=
  ⟨hc, fun h => absurd (hf.symm.trans h) (by simp), fun f' hf' => by
    rw [hf, Option.some.injEq] at hf'
    exact hf' ▸ hF⟩

/-- `write_segment` of a segment of the shard never panics: it starts the
write, or bails with nothing written or in writing changed. -/
theorem PoolInv.writeSegment (hv : config.shardConfig.validate = .ok ())
    (h : PoolInv config id totalSegments txStartIndex c W V) (hi : InShard config.shardConfig txStartIndex i)
    {r : Except Error Unit} (hw : c.writeSegment id i totalSegments txStartIndex = (c', r)) :
    (r = .ok () ∧ PoolInv config id totalSegments txStartIndex c' W (insert i V)) ∨
      ((∃ msg, r = .error (.bail msg)) ∧ PoolInv config id totalSegments txStartIndex c' W V) := by
  have hf := h.fileOf_getD hv
  rw [ChunkPoolWriteCtrl.writeSegment] at hw
  generalize (c.files id.root).getD (FileWriteCtrl.new id totalSegments c.config.shardConfig txStartIndex) = f
    at hf hw
  -- the control is of the file and of its size: the first two checks pass
  rw [if_neg (not_not.mpr hf.id_eq), if_neg (not_not.mpr hf.totalSegments_eq)] at hw
  have hentered := poolInv_of_file (c := { c with files := Function.update c.files id.root (some f) })
    h.config_eq (by simp) hf
  split_ifs at hw with hdup hmax
  · cases hw
    exact .inr ⟨⟨_, rfl⟩, hentered⟩
  · cases hw
    exact .inr ⟨⟨_, rfl⟩, hentered⟩
  · have hfi : InShard f.window.shardConfig f.window.txStartIndex i := by
      rw [hf.shardConfig_eq, hf.txStartIndex_eq]
      exact hi
    obtain ⟨hs, hinv⟩ := hf.window.startWriting hfi (Bool.eq_false_iff.mpr hdup)
    rw [hs] at hw
    cases hw
    exact .inl ⟨rfl, poolInv_of_file
      (f := { f with window := { f.window with slots := SortedMap.insert f.window.slots i .writing } })
      h.config_eq (by simp)
      ⟨hf.id_eq, hf.totalSegments_eq, hf.shardConfig_eq, hf.txStartIndex_eq, hinv⟩⟩

/-- `on_write_succeeded` on the file returns only for a segment in writing:
it is then written, and the call answers from the moved boundary. -/
theorem PoolInv.onWriteSucceeded (hv : config.shardConfig.validate = .ok ())
    (h : PoolInv config id totalSegments txStartIndex c W V) {f : FileWriteCtrl} (hf : c.files id.root = some f)
    {b : Bool} (hw : c.onWriteSucceeded id.root i = (c', .ok b)) :
    ∃ f', c'.files id.root = some f' ∧
      b = decide (f'.window.leftBoundary + config.shardConfig.numShard > totalSegments) ∧
      PoolInv config id totalSegments txStartIndex c' (insert i W) (V \ {i}) := by
  have hF := h.some_file f hf
  rw [ChunkPoolWriteCtrl.onWriteSucceeded, hf] at hw
  dsimp only at hw
  split at hw
  · cases hw
  · rename_i window hfin
    obtain ⟨-, hinv, hsc, hst⟩ := hF.window.finishWriting (hF.shardConfig_eq ▸ hv) hfin
    split_ifs at hw with hzero
    · cases hw
    · cases hw
      refine ⟨{ f with window := window }, by simp, by simp [h.config_eq, hF.totalSegments_eq],
        poolInv_of_file (f := { f with window := window }) h.config_eq (by simp)
        ⟨hF.id_eq, hF.totalSegments_eq, hsc.trans hF.shardConfig_eq, hst.trans hF.txStartIndex_eq, hinv⟩⟩

/-- `on_write_failed` on the file returns only for a segment in writing,
and drops it. -/
theorem PoolInv.onWriteFailed (h : PoolInv config id totalSegments txStartIndex c W V)
    (hw : c.onWriteFailed id.root i = (c', .ok ())) :
    PoolInv config id totalSegments txStartIndex c' W (V \ {i}) := by
  rw [ChunkPoolWriteCtrl.onWriteFailed] at hw
  cases hf : c.files id.root with
  | none =>
    rw [hf] at hw
    cases hw
    obtain ⟨rfl, rfl⟩ := h.none_empty hf
    simpa using h
  | some f =>
    have hF := h.some_file f hf
    rw [hf] at hw
    dsimp only at hw
    split at hw
    · cases hw
    · rename_i window hroll
      obtain ⟨-, hinv, hsc, hst⟩ := hF.window.rollbackWriting hroll
      split_ifs at hw with hzero
      · cases hw
      · cases hw
        exact poolInv_of_file (f := { f with window := window }) h.config_eq (by simp)
          ⟨hF.id_eq, hF.totalSegments_eq, hsc.trans hF.shardConfig_eq, hst.trans hF.txStartIndex_eq, hinv⟩

/-- Along every run on one file, the pool keeps `PoolInv`. -/
theorem Uploads.poolInv (hv : config.shardConfig.validate = .ok ())
    (h : Uploads config id totalSegments txStartIndex c W V) : PoolInv config id totalSegments txStartIndex c W V := by
  induction h with
  | new => exact ⟨rfl, fun _ => ⟨rfl, rfl⟩, fun f hf => by cases hf⟩
  | writeSegment _ hi hw ih =>
    rcases ih.writeSegment hv hi hw with ⟨-, h'⟩ | ⟨⟨msg, hmsg⟩, -⟩
    · exact h'
    · cases hmsg
  | writeSegmentBail _ hi hw ih =>
    rcases ih.writeSegment hv hi hw with ⟨hok, -⟩ | ⟨-, h'⟩
    · cases hok
    · exact h'
  | onWriteSucceeded _ hsome hw ih =>
    obtain ⟨f, hf⟩ := Option.isSome_iff_exists.mp hsome
    obtain ⟨-, -, -, h'⟩ := ih.onWriteSucceeded hv hf hw
    exact h'
  | onWriteSucceededNone _ hnone hw ih =>
    rw [ChunkPoolWriteCtrl.onWriteSucceeded, hnone] at hw
    cases hw
    exact ih
  | onWriteFailed _ hw ih => exact ih.onWriteFailed hw

/-- The answer of `on_write_succeeded` from a window: a boundary `num_shard`
or more past `total_segments` minus `num_shard` is past every segment of the
shard that starts `num_shard` before the end, not past every one below the
end. -/
theorem CtrlWindow.WindowInv.boundary_add_gt_iff {w : CtrlWindow} (h : CtrlWindow.WindowInv w W V) (T : Nat) :
    w.leftBoundary + w.shardConfig.numShard > T ↔
      ∀ j, InShard w.shardConfig w.txStartIndex j → j + w.shardConfig.numShard ≤ T → j ∈ W := by
  constructor
  · intro hgt j hj hle
    exact h.below j (by omega) hj
  · intro hall
    by_contra hle
    exact h.not_written (hall _ h.inShard (by omega))

/-- Along every run on one file, a write of a segment of the shard starts or
bails: it never panics. -/
theorem Uploads.writeSegment_ok_or_bail (hv : config.shardConfig.validate = .ok ())
    (h : Uploads config id totalSegments txStartIndex c W V) (hi : InShard config.shardConfig txStartIndex i)
    {r : Except Error Unit} (hw : c.writeSegment id i totalSegments txStartIndex = (c', r)) :
    r = .ok () ∨ ∃ msg, r = .error (.bail msg) := by
  rcases (h.poolInv hv).writeSegment hv hi hw with ⟨hr, -⟩ | ⟨hr, -⟩
  · exact .inl hr
  · exact .inr hr

/-- Along every run on one file: once the file is entered, `left_boundary`
is the first segment of the shard not written; `check_duplicate` holds of a
segment of the shard exactly when it is written or in writing; and
`on_write_succeeded` answers `true` exactly when every segment of the shard
that starts `num_shard` or more before `total_segments` is written. A write
of a segment of the shard never panics. -/
theorem Uploads.window_spec (hv : config.shardConfig.validate = .ok ())
    (h : Uploads config id totalSegments txStartIndex c W V) :
    (∀ f, c.files id.root = some f →
      (InShard config.shardConfig txStartIndex f.window.leftBoundary ∧ f.window.leftBoundary ∉ W ∧
        ∀ j < f.window.leftBoundary, InShard config.shardConfig txStartIndex j → j ∈ W) ∧
      (∀ j, InShard config.shardConfig txStartIndex j → (f.window.checkDuplicate j = true ↔ j ∈ W ∨ j ∈ V)) ∧
      ∀ i c' b, c.onWriteSucceeded id.root i = (c', .ok b) →
        (b = true ↔ ∀ j, InShard config.shardConfig txStartIndex j →
          j + config.shardConfig.numShard ≤ totalSegments → j ∈ insert i W)) ∧
    ∀ i, InShard config.shardConfig txStartIndex i → ∀ c' r,
      c.writeSegment id i totalSegments txStartIndex = (c', r) → r = .ok () ∨ ∃ msg, r = .error (.bail msg) := by
  have hp := h.poolInv hv
  refine ⟨fun f hf => ?_, fun i hi c' r hw => h.writeSegment_ok_or_bail hv hi hw⟩
  have hF := hp.some_file f hf
  -- the window's shard is the configuration's
  have hkey : ∀ j, InShard f.window.shardConfig f.window.txStartIndex j ↔ InShard config.shardConfig txStartIndex j := by
    intro j
    rw [hF.shardConfig_eq, hF.txStartIndex_eq]
  refine ⟨⟨(hkey _).mp hF.window.inShard, hF.window.not_written, fun j hj hs => hF.window.below j hj ((hkey j).mpr hs)⟩,
    fun j hj => hF.window.checkDuplicate_iff ((hkey j).mpr hj), fun i c' b hsucc => ?_⟩
  obtain ⟨f', hf', rfl, hp'⟩ := hp.onWriteSucceeded hv hf hsucc
  have hF' := hp'.some_file f' hf'
  have hb := hF'.window.boundary_add_gt_iff totalSegments
  rw [hF'.shardConfig_eq, hF'.txStartIndex_eq] at hb
  rw [decide_eq_true_iff, hb]

end OneFile

/-! ### A file of three segments on shard `0` of `2` -/

/-- The node stores shard `0` of `2`, and one write at a time. -/
def twoShards : Config := ⟨1, ⟨2, 0⟩⟩

/-- A file of data root zero, in the transaction of sequence `0`. -/
def oneFile : FileID := ⟨H256.zero, ⟨0, H256.zero⟩⟩

/-- The pool after `write_segment` of segment `0` of three. -/
def segmentZeroWriting : ChunkPoolWriteCtrl :=
  ((ChunkPoolWriteCtrl.new twoShards).writeSegment oneFile 0 3 0).1

/-- The pool after segment `0` is written: the boundary at segment `2`. -/
def segmentZeroWritten : ChunkPoolWriteCtrl :=
  { segmentZeroWriting with
    files := Function.update segmentZeroWriting.files oneFile.root (some ⟨oneFile, 3, ⟨0, ⟨2, 0⟩, 2, []⟩⟩)
    totalWritings := 0 }

theorem writeSegment_zero :
    (ChunkPoolWriteCtrl.new twoShards).writeSegment oneFile 0 3 0 = (segmentZeroWriting, .ok ()) := rfl

/-- Writing segment `0` moves the boundary past it, to segment `2`, the last
of the shard; `2 + 2 > 3`, so the call answers `true`. -/
theorem onWriteSucceeded_zero :
    segmentZeroWriting.onWriteSucceeded oneFile.root 0 = (segmentZeroWritten, .ok true) := by
  have hfile : segmentZeroWriting.files oneFile.root = some ⟨oneFile, 3, ⟨0, ⟨2, 0⟩, 0, [(0, .writing)]⟩⟩ := rfl
  -- the loop of `finish_writing` removes the slot of `0` and stops at `2`
  have hadv : CtrlWindow.advance ⟨2, 0⟩ 0 [(0, .finished)] 0 = ([], 2) := by
    rw [CtrlWindow.advance_of_finished (by decide), CtrlWindow.advance_of_not_finished (by decide)]
    rfl
  have hfin : CtrlWindow.finishWriting ⟨0, ⟨2, 0⟩, 0, [(0, .writing)]⟩ 0 = .ok ⟨0, ⟨2, 0⟩, 2, []⟩ := by
    rw [CtrlWindow.finishWriting, if_pos (by decide)]
    dsimp only
    rw [show SortedMap.insert [(0, SlotStatus.writing)] 0 .finished = [(0, .finished)] from rfl, hadv]
  rw [ChunkPoolWriteCtrl.onWriteSucceeded, hfile]
  dsimp only
  rw [hfin]
  rfl

theorem uploads_segmentZeroWritten : Uploads twoShards oneFile 3 0 segmentZeroWritten {0} ∅ := by
  have h₁ := Uploads.writeSegment (i := 0) Uploads.new (by decide) writeSegment_zero
  have h₂ := Uploads.onWriteSucceeded h₁ rfl onWriteSucceeded_zero
  simpa using h₂

/-- After segment `0` alone is written, `on_write_succeeded` answers that the
file is all written, while segment `2`, of the shard and below
`total_segments`, is not. -/
theorem onWriteSucceeded_before_last_segment :
    (ChunkPoolWriteCtrl.new twoShards).writeSegment oneFile 0 3 0 = (segmentZeroWriting, .ok ()) ∧
      segmentZeroWriting.onWriteSucceeded oneFile.root 0 = (segmentZeroWritten, .ok true) ∧
      Uploads twoShards oneFile 3 0 segmentZeroWritten {0} ∅ ∧
      InShard twoShards.shardConfig 0 2 ∧ 2 < 3 ∧ 2 ∉ ({0} : Set Nat) :=
  ⟨writeSegment_zero, onWriteSucceeded_zero, uploads_segmentZeroWritten, by decide, by decide, by simp⟩

theorem files_segmentZeroWritten :
    segmentZeroWritten.files oneFile.root = some ⟨oneFile, 3, ⟨0, ⟨2, 0⟩, 2, []⟩⟩ := rfl

theorem window_spec_segmentZeroWritten :
    ((InShard twoShards.shardConfig 0 2 ∧ 2 ∉ ({0} : Set Nat) ∧
        ∀ j < 2, InShard twoShards.shardConfig 0 j → j ∈ ({0} : Set Nat)) ∧
      (∀ j, InShard twoShards.shardConfig 0 j →
        ((⟨0, ⟨2, 0⟩, 2, []⟩ : CtrlWindow).checkDuplicate j = true ↔ j ∈ ({0} : Set Nat) ∨ j ∈ (∅ : Set Nat))) ∧
      ∀ i c' b, segmentZeroWritten.onWriteSucceeded oneFile.root i = (c', .ok b) →
        (b = true ↔ ∀ j, InShard twoShards.shardConfig 0 j →
          j + twoShards.shardConfig.numShard ≤ 3 → j ∈ insert i ({0} : Set Nat))) ∧
    ∀ i, InShard twoShards.shardConfig 0 i → ∀ c' r,
      segmentZeroWritten.writeSegment oneFile i 3 0 = (c', r) → r = .ok () ∨ ∃ msg, r = .error (.bail msg) :=
  ⟨(Uploads.window_spec (by decide) uploads_segmentZeroWritten).1 _ files_segmentZeroWritten,
    (Uploads.window_spec (by decide) uploads_segmentZeroWritten).2⟩

end ChunkPool

end ZgStorage

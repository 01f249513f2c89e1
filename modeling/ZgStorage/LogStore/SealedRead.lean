import ZgStorage.LogStore.EntryBatch
import ZgStorage.Framework.Windows

/-!
# Reading a sealed batch

What a reader of a complete batch sees once some of its seals are sealed.
`SealedImage s sealedIn d w` says that the bytes `w` of the batch are the
bytes `d` with each seal that `s` marks sealed sealed in the context
`sealedIn` names for it; `LooksUp s sealedIn`, that the seal info finds for
each sealed seal the context it was sealed in. Then every read unseals back
to `d`:

* `getUnsealedData_eq`: `get_unsealed_data` of any sectors returns those
  sectors of `d`, in each of its three ways of reading: from the start of a
  seal, from inside a sealed seal (unsealing from the sealed word before the
  start) and from inside a seal that is not sealed;
* `toUnsealedData_eq`: `to_unsealed_data` returns `d`, as one chunk;
* `SealedImage.write`: writing a seal's sealing over it keeps the image.
-/

namespace ZgStorage


theorem bytesPerLoad_eq_seals : bytesPerLoad = sealsPerLoad * bytesPerSeal := rfl

theorem length_window_seal {l : List UInt8} (hl : l.length = bytesPerLoad) {i : Nat} (hi : i < sealsPerLoad) :
    (Windows.window bytesPerSeal l i).length = bytesPerSeal :=
  Windows.length_window (hl.trans bytesPerLoad_eq_seals) hi

namespace SealInfo

variable [Keccak]

/-- The first mask `zgs_seal::seal` seals seal `i` with in the context `ctx`. -/
def firstMask (s : SealInfo) (ctx : H256) (i : Nat) : H256 :=
  Keccak.keccak (ZgsSeal.computeFirstMaskSeed s.minerId ctx (s.globalSealSector i))

@[simp] theorem firstMask_markSealed (s : SealInfo) (i : Nat) : (s.markSealed i).firstMask = s.firstMask := rfl

end SealInfo

/-- The seal info looks each sealed seal's context up as the one it was
sealed in. -/
def LooksUp (s : SealInfo) (sealedIn : Nat → H256) : Prop :=
  ∀ i < sealsPerLoad, s.isSealed i = true → s.getSealContextDigest i = some (sealedIn i)

variable [Keccak]

/-- The bytes `w` of a complete batch are the bytes `d` with each seal that
`s` marks sealed sealed in the context `sealedIn` names for it. -/
structure SealedImage (s : SealInfo) (sealedIn : Nat → H256) (d w : List UInt8) : Prop where
  length_data : d.length = bytesPerLoad
  length_image : w.length = bytesPerLoad
  window_eq : ∀ i < sealsPerLoad, Windows.window bytesPerSeal w i =
    if s.isSealed i then ZgsSeal.sealLoop (s.firstMask (sealedIn i) i) (Windows.window bytesPerSeal d i) else Windows.window bytesPerSeal d i

namespace SealedImage

variable {s : SealInfo} {sealedIn : Nat → H256} {d w : List UInt8}

/-- A prefix of whole words of a seal unseals to that prefix of `d`. -/
theorem unseal_take (h : SealedImage s sealedIn d w) (hl : LooksUp s sealedIn) {i : Nat}
    (hi : i < sealsPerLoad) {L : Nat} (hL : 32 ∣ L) :
    s.unseal ((Windows.window bytesPerSeal w i).take L) i = .ok ((Windows.window bytesPerSeal d i).take L) := by
  obtain ⟨q, rfl⟩ := hL
  rw [h.window_eq i hi]
  by_cases hs : s.isSealed i
  · have h32 : ((ZgsSeal.sealLoop (s.firstMask (sealedIn i) i) (Windows.window bytesPerSeal d i)).take (32 * q)).length % 32 = 0 := by
      rw [List.length_take, ZgsSeal.length_sealLoop, length_window_seal h.length_data hi]
      unfold bytesPerSeal
      omega
    simp only [hs, if_true, SealInfo.unseal, Bool.not_true, Bool.false_eq_true, hl i hi hs, ZgsSeal.unseal,
      ZgsSeal.unsealWithMaskSeed, ZgsSeal.unsealWithMask, h32, if_true, if_false]
    rw [← SealInfo.firstMask, ZgsSeal.unsealLoop_take, ZgsSeal.unsealLoop_sealLoop]
  · simp [hs, SealInfo.unseal]

/-- Whole seals and a prefix of the last, from seal `k` on, unseal to the
bytes of `d` there. -/
theorem unsealChunks_eq (h : SealedImage s sealedIn d w) (hl : LooksUp s sealedIn) :
    ∀ (q k L : Nat), k + q ≤ sealsPerLoad → L ≤ q * bytesPerSeal → 32 ∣ L →
      EntryBatch.unsealChunks s k ((w.drop (k * bytesPerSeal)).take L) =
        .ok ((d.drop (k * bytesPerSeal)).take L)
  | 0, k, L, _, hL, _ => by
    have hL0 : L = 0 := by simpa using hL
    rw [hL0, List.take_zero, List.take_zero, EntryBatch.unsealChunks, dif_pos rfl]
  | q + 1, k, L, hk, hL, h32 => by
    by_cases hL0 : L = 0
    · rw [hL0, List.take_zero, List.take_zero, EntryBatch.unsealChunks, dif_pos rfl]
    have hw := h.length_image
    have hne : (w.drop (k * bytesPerSeal)).take L ≠ [] := by
      rw [← List.length_pos_iff, List.length_take, List.length_drop, hw]
      unfold sealsPerLoad bytesPerSeal bytesPerLoad at *
      omega
    -- the first chunk is a prefix of seal `k`, and the rest starts at seal `k + 1`
    have hchunk : ((w.drop (k * bytesPerSeal)).take L).take bytesPerSeal = (Windows.window bytesPerSeal w k).take L := by
      rw [Windows.window, List.take_take, List.take_take, Nat.min_comm]
    have hnext : ∀ l : List UInt8, (l.drop (k * bytesPerSeal)).drop bytesPerSeal = l.drop ((k + 1) * bytesPerSeal) := by
      intro l
      rw [List.drop_drop, Nat.succ_mul]
    have hrest : ((w.drop (k * bytesPerSeal)).take L).drop bytesPerSeal =
        (w.drop ((k + 1) * bytesPerSeal)).take (L - bytesPerSeal) := by
      rw [List.drop_take, hnext]
    have h32' : 32 ∣ L - bytesPerSeal := Nat.dvd_sub h32 (by unfold bytesPerSeal; decide)
    rw [EntryBatch.unsealChunks, dif_neg hne, hchunk, hrest, h.unseal_take hl (by omega) h32,
      unsealChunks_eq h hl q (k + 1) (L - bytesPerSeal) (by omega) (by rw [Nat.succ_mul] at hL; omega) h32']
    simp only [Except.ok_bind]
    rw [Windows.window, ← hnext d, Windows.take_take_append_take_drop]
    rfl

/-- Within a seal that is not sealed, `w` holds the bytes of `d`. -/
theorem take_of_unsealed (h : SealedImage s sealedIn d w) {k a m : Nat} (hk : k < sealsPerLoad)
    (hs : s.isSealed k = false) (ha : k * bytesPerSeal ≤ a) (hm : a + m ≤ k * bytesPerSeal + bytesPerSeal) :
    (w.drop a).take m = (d.drop a).take m := by
  have hw := h.window_eq k hk
  rw [hs, if_neg Bool.false_ne_true] at hw
  rw [Windows.drop_take_of_window w _ _ ha hm, Windows.drop_take_of_window d _ _ ha hm, ← Windows.window, ← Windows.window, hw]

/-- Within a sealed seal, the whole words from `a` unseal, with the sealed
word before them as the seed of the mask, to the bytes of `d`. -/
theorem unsealWithMaskSeed_of_sealed (h : SealedImage s sealedIn d w) {k a m : Nat} (hk : k < sealsPerLoad)
    (hs : s.isSealed k = true) (ha : k * bytesPerSeal < a) (ha32 : 32 ∣ a)
    (hm : a + m ≤ k * bytesPerSeal + bytesPerSeal) (hm32 : 32 ∣ m) :
    ZgsSeal.unsealWithMaskSeed ((w.drop a).take m) ((w.drop (a - 32)).take 32) = .ok ((d.drop a).take m) := by
  have hw := h.window_eq k hk
  rw [hs, if_pos rfl] at hw
  -- `a` is a whole number `j + 1` of words into the seal
  obtain ⟨j, hj⟩ : ∃ j, a - k * bytesPerSeal = 32 * j + 32 := by
    obtain ⟨c, hc⟩ := ha32
    exact ⟨c - 1 - 128 * k, by unfold bytesPerSeal at *; omega⟩
  obtain ⟨q, rfl⟩ := hm32
  have hseed : (w.drop (a - 32)).take 32 =
      ((ZgsSeal.sealLoop (s.firstMask (sealedIn k) k) (Windows.window bytesPerSeal d k)).drop (32 * j)).take 32 := by
    rw [Windows.drop_take_of_window w (k * bytesPerSeal) bytesPerSeal (by unfold bytesPerSeal at *; omega)
      (by unfold bytesPerSeal at *; omega), ← Windows.window, hw]
    congr 2
    omega
  have hdata : ∀ l : List UInt8, (l.drop a).take (32 * q) = ((Windows.window bytesPerSeal l k).drop (32 * j + 32)).take (32 * q) := by
    intro l
    rw [Windows.drop_take_of_window l _ _ (Nat.le_of_lt ha) hm, ← Windows.window, hj]
  have hlen : ((w.drop a).take (32 * q)).length % 32 = 0 := by
    rw [List.length_take, List.length_drop, h.length_image]
    unfold bytesPerSeal bytesPerLoad at *
    omega
  simp only [ZgsSeal.unsealWithMaskSeed, ZgsSeal.unsealWithMask, hlen, if_true]
  rw [hseed, hdata w, hdata d, hw, ZgsSeal.unsealLoop_take, ZgsSeal.unsealLoop_drop_sealLoop]

/-- The end of a read: once the part before byte `a + r`, the start of seal
`k`, reads as `d`, the seals from `k` on unseal to `d` too. -/
theorem read_tail (h : SealedImage s sealedIn d w) (hl : LooksUp s sealedIn) {a r k L : Nat}
    (hk : a + r = k * bytesPerSeal) (hkL : a + L ≤ bytesPerLoad) (hL32 : 32 ∣ L) (hr32 : 32 ∣ r)
    {x : List UInt8} (hx : x = (d.drop a).take (min r L) ++ (w.drop (a + r)).take (L - r)) :
    (if x.length > r then do
        let completeChunks ← EntryBatch.unsealChunks s ((a + r) / bytesPerSeal) (x.drop r)
        pure (some (x.take r ++ completeChunks))
      else pure (some x)) = (.ok (some ((d.drop a).take L)) : Except Error (Option (List UInt8))) := by
  have hd := h.length_data
  have hhead : ((d.drop a).take (min r L)).length = min r L := by
    rw [List.length_take, List.length_drop]
    omega
  by_cases hL : r < L
  · have hlen : x.length > r := by
      rw [hx, List.length_append, hhead, List.length_take, List.length_drop, h.length_image]
      unfold bytesPerSeal bytesPerLoad at *
      omega
    have htake : x.take r = (d.drop a).take r := by
      rw [hx, List.take_append_of_le_length (by omega), List.take_of_length_le (by omega), Nat.min_eq_left (by omega)]
    have hdrop : x.drop r = (w.drop (k * bytesPerSeal)).take (L - r) := by
      rw [hx, List.drop_append_of_le_length (by omega), List.drop_of_length_le (by omega), List.nil_append, hk]
    rw [if_pos hlen, htake, hdrop, hk, Nat.mul_div_cancel _ (by decide),
      h.unsealChunks_eq hl (sealsPerLoad - k) k (L - r) ?_ ?_ (Nat.dvd_sub hL32 hr32), ← hk]
    · show Except.ok (some (_ ++ _)) = _
      rw [← List.drop_drop, ← List.take_add, Nat.add_sub_cancel' (by omega)]
    · unfold sealsPerLoad bytesPerSeal bytesPerLoad at *
      omega
    · unfold sealsPerLoad bytesPerSeal bytesPerLoad at *
      omega
  · have hx' : x = (d.drop a).take L := by
      rw [hx, Nat.min_eq_right (by omega), Nat.sub_eq_zero_of_le (by omega), List.take_zero, List.append_nil]
    have hlen : ¬x.length > r := by
      rw [hx', List.length_take, List.length_drop]
      omega
    rw [if_neg hlen, hx']
    rfl

/-- A read from the start of a seal unseals the seals it covers. -/
theorem getUnsealedData_aligned (h : SealedImage s sealedIn d w) (hl : LooksUp s sealedIn) {st n : Nat}
    (hst : st % sectorsPerSeal = 0) (hn : 0 < n) (hend : st + n ≤ sectorsPerLoad) :
    EntryBatch.getUnsealedData ⟨s, .complete w⟩ st n =
      .ok (some ((d.drop (st * bytesPerSector)).take (n * bytesPerSector))) := by
  have ha : st * bytesPerSector = st / sectorsPerSeal * bytesPerSeal := by
    unfold sectorsPerSeal bytesPerSector bytesPerSeal at *
    omega
  have hget := EntryBatchData.get_complete h.length_image (a := st * bytesPerSector) (L := n * bytesPerSector)
    (by unfold sectorsPerLoad bytesPerSector bytesPerLoad at *; omega)
  have hinc : (bytesPerLoad - st * bytesPerSector) % bytesPerSeal = 0 := by
    unfold sectorsPerSeal bytesPerSector bytesPerSeal bytesPerLoad at *
    omega
  have hlen : ((w.drop (st * bytesPerSector)).take (n * bytesPerSector)).length > 0 := by
    rw [List.length_take, List.length_drop, h.length_image]
    unfold sectorsPerLoad bytesPerSector bytesPerLoad at *
    omega
  simp only [EntryBatch.getUnsealedData, hst, if_true, Bool.false_eq_true, if_false, hget, hinc,
    Except.ok_bind, List.drop_zero, List.take_zero, Nat.add_zero, List.nil_append, pure_bind, if_pos hlen]
  rw [ha, Nat.mul_div_cancel _ (by decide), h.unsealChunks_eq hl (sealsPerLoad - st / sectorsPerSeal)
    (st / sectorsPerSeal) (n * bytesPerSector) ?_ ?_ ?_]
  · rfl
  · unfold sectorsPerSeal sectorsPerLoad sealsPerLoad at *
    omega
  · unfold sectorsPerSeal sectorsPerLoad bytesPerSector bytesPerSeal sealsPerLoad at *
    omega
  · exact Dvd.dvd.mul_left (by decide) n

/-- A read from inside a seal that is not sealed copies the rest of that
seal and unseals the seals after it. -/
theorem getUnsealedData_of_unsealed (h : SealedImage s sealedIn d w) (hl : LooksUp s sealedIn) {st n : Nat}
    (hst : st % sectorsPerSeal ≠ 0) (hs : s.isSealed (st / sectorsPerSeal) = false) (hn : 0 < n)
    (hend : st + n ≤ sectorsPerLoad) :
    EntryBatch.getUnsealedData ⟨s, .complete w⟩ st n =
      .ok (some ((d.drop (st * bytesPerSector)).take (n * bytesPerSector))) := by
  have hget := EntryBatchData.get_complete h.length_image (a := st * bytesPerSector) (L := n * bytesPerSector)
    (by unfold sectorsPerLoad bytesPerSector bytesPerLoad at *; omega)
  have hk : st * bytesPerSector + (bytesPerLoad - st * bytesPerSector) % bytesPerSeal =
      (st / sectorsPerSeal + 1) * bytesPerSeal := by
    unfold sectorsPerSeal sectorsPerLoad bytesPerSector bytesPerSeal bytesPerLoad at *
    omega
  have hx  := Windows.drop_take_split w (st * bytesPerSector) ((bytesPerLoad - st * bytesPerSector) % bytesPerSeal)
    (n * bytesPerSector)
  rw [take_of_unsealed h (k := st / sectorsPerSeal)
    (m := min ((bytesPerLoad - st * bytesPerSector) % bytesPerSeal) (n * bytesPerSector)) (by unfold sectorsPerSeal sectorsPerLoad sealsPerLoad at *; omega) hs
    (by unfold sectorsPerSeal bytesPerSector bytesPerSeal at *; omega)
    (by unfold sectorsPerSeal bytesPerSector bytesPerSeal bytesPerLoad at *; omega)] at hx
  simp only [EntryBatch.getUnsealedData, hst, if_false, hs, Bool.false_eq_true, hget, Except.ok_bind, pure_bind]
  exact read_tail h hl hk (by unfold sectorsPerLoad bytesPerSector bytesPerLoad at *; omega)
    (by unfold bytesPerSector; omega) (by unfold bytesPerSector bytesPerSeal bytesPerLoad; omega) hx

/-- A read from inside a sealed seal loads the sealed word before it as the
seed of the mask, unseals the rest of that seal with it and unseals the
seals after it. -/
theorem getUnsealedData_of_sealed (h : SealedImage s sealedIn d w) (hl : LooksUp s sealedIn) {st n : Nat}
    (hst : st % sectorsPerSeal ≠ 0) (hs : s.isSealed (st / sectorsPerSeal) = true) (hn : 0 < n)
    (hend : st + n ≤ sectorsPerLoad) :
    EntryBatch.getUnsealedData ⟨s, .complete w⟩ st n =
      .ok (some ((d.drop (st * bytesPerSector)).take (n * bytesPerSector))) := by
  have hget := EntryBatchData.get_complete h.length_image (a := st * bytesPerSector - 32) (L := n * bytesPerSector + 32)
    (by unfold sectorsPerSeal sectorsPerLoad bytesPerSector bytesPerLoad at *; omega)
  have hseed : ((w.drop (st * bytesPerSector - 32)).take (n * bytesPerSector + 32)).take 32 =
      (w.drop (st * bytesPerSector - 32)).take 32 := by
    rw [List.take_take, Nat.min_eq_left (by omega)]
  have hdata : ((w.drop (st * bytesPerSector - 32)).take (n * bytesPerSector + 32)).drop 32 =
      (w.drop (st * bytesPerSector)).take (n * bytesPerSector) := by
    rw [List.drop_take, List.drop_drop, Nat.add_sub_cancel, Nat.sub_add_cancel (by
      unfold sectorsPerSeal bytesPerSector at *; omega)]
  have hk : st * bytesPerSector + (bytesPerLoad - st * bytesPerSector) % bytesPerSeal =
      (st / sectorsPerSeal + 1) * bytesPerSeal := by
    unfold sectorsPerSeal sectorsPerLoad bytesPerSector bytesPerSeal bytesPerLoad at *
    omega
  have hr32 : 32 ∣ (bytesPerLoad - st * bytesPerSector) % bytesPerSeal := by
    unfold bytesPerSector bytesPerSeal bytesPerLoad
    omega
  have hL32 : 32 ∣ n * bytesPerSector := by
    unfold bytesPerSector
    omega
  have hkL : st * bytesPerSector + n * bytesPerSector ≤ bytesPerLoad := by
    unfold sectorsPerLoad bytesPerSector bytesPerLoad at *
    omega
  -- the head: what the read takes of the seal it starts in
  have hhead := unsealWithMaskSeed_of_sealed h (k := st / sectorsPerSeal) (a := st * bytesPerSector)
    (m := min ((bytesPerLoad - st * bytesPerSector) % bytesPerSeal) (n * bytesPerSector))
    (by unfold sectorsPerSeal sectorsPerLoad sealsPerLoad at *; omega) hs
    (by unfold sectorsPerSeal bytesPerSector bytesPerSeal at *; omega) (by unfold bytesPerSector; omega)
    (by unfold sectorsPerSeal bytesPerSector bytesPerSeal bytesPerLoad at *; omega)
    (by rcases Nat.le_total ((bytesPerLoad - st * bytesPerSector) % bytesPerSeal) (n * bytesPerSector) with hle | hle
        · rwa [Nat.min_eq_left hle]
        · rwa [Nat.min_eq_right hle])
  simp only [EntryBatch.getUnsealedData, hst, if_false, hs, if_true, hget, Except.ok_bind, hseed, hdata]
  generalize (bytesPerLoad - st * bytesPerSector) % bytesPerSeal = r at hk hr32 hhead ⊢
  by_cases hL : n * bytesPerSector < r
  · have hlen : ((w.drop (st * bytesPerSector)).take (n * bytesPerSector)).length < r := by
      rw [List.length_take]
      omega
    rw [Nat.min_eq_right hL.le] at hhead
    rw [if_pos hlen, hhead, Except.ok_bind]
    exact read_tail h hl hk hkL hL32 hr32 (by
      rw [Nat.min_eq_right hL.le, Nat.sub_eq_zero_of_le hL.le, List.take_zero, List.append_nil])
  · have hlen : ¬((w.drop (st * bytesPerSector)).take (n * bytesPerSector)).length < r := by
      rw [List.length_take, List.length_drop, h.length_image]
      omega
    rw [Nat.min_eq_left (by omega)] at hhead
    rw [if_neg hlen, List.take_take, Nat.min_eq_left (by omega), hhead, Except.ok_bind, pure_bind]
    exact read_tail h hl hk hkL hL32 hr32 (by
      rw [Nat.min_eq_left (by omega), List.drop_take, List.drop_drop])

/-- Every read of the image returns the bytes of `d`. -/
theorem getUnsealedData_eq (h : SealedImage s sealedIn d w) (hl : LooksUp s sealedIn) {st n : Nat}
    (hn : 0 < n) (hend : st + n ≤ sectorsPerLoad) :
    EntryBatch.getUnsealedData ⟨s, .complete w⟩ st n =
      .ok (some ((d.drop (st * bytesPerSector)).take (n * bytesPerSector))) := by
  by_cases hst : st % sectorsPerSeal = 0
  · exact h.getUnsealedData_aligned hl hst hn hend
  · cases hs : s.isSealed (st / sectorsPerSeal)
    · exact h.getUnsealedData_of_unsealed hl hst hs hn hend
    · exact h.getUnsealedData_of_sealed hl hst hs hn hend

/-- A seal that is not sealed holds the seal of `d`. -/
theorem window_of_unsealed (h : SealedImage s sealedIn d w) {k : Nat} (hk : k < sealsPerLoad)
    (hs : s.isSealed k = false) : Windows.window bytesPerSeal w k = Windows.window bytesPerSeal d k := by
  have hw := h.window_eq k hk
  rwa [hs, if_neg Bool.false_ne_true] at hw

/-- A sealed seal unseals whole to the seal of `d`. -/
theorem unseal_window (h : SealedImage s sealedIn d w) (hl : LooksUp s sealedIn) {k : Nat}
    (hk : k < sealsPerLoad) : s.unseal (Windows.window bytesPerSeal w k) k = .ok (Windows.window bytesPerSeal d k) := by
  have hfull : ∀ l : List UInt8, l.length = bytesPerLoad → (Windows.window bytesPerSeal l k).take bytesPerSeal = Windows.window bytesPerSeal l k :=
    fun l hl' => List.take_of_length_le (by rw [length_window_seal hl' hk])
  have := h.unseal_take hl hk (L := bytesPerSeal) (by unfold bytesPerSeal; decide)
  rwa [hfull w h.length_image, hfull d h.length_data] at this

/-- The loop of `to_unsealed_data` from seal `k` on gives the bytes of `d`
from there. -/
theorem unsealSeals_range' (h : SealedImage s sealedIn d w) (hl : LooksUp s sealedIn) :
    ∀ (q k : Nat), k + q = sealsPerLoad →
      EntryBatch.unsealSeals ⟨s, .complete w⟩ (List.range' k q) = .ok (some (d.drop (k * bytesPerSeal)))
  | 0, k, hk => by
    rw [List.range'_zero, EntryBatch.unsealSeals, List.drop_eq_nil_of_le (by
      rw [h.length_data, Nat.add_zero] at *
      rw [hk]
      decide)]
  | q + 1, k, hk => by
    have hget := EntryBatchData.get_complete h.length_image (a := k * bytesPerSeal) (L := bytesPerSeal)
      (by unfold sealsPerLoad bytesPerSeal bytesPerLoad at *; omega)
    rw [← Windows.window] at hget
    have hnext : d.drop (k * bytesPerSeal) = Windows.window bytesPerSeal d k ++ d.drop ((k + 1) * bytesPerSeal) := by
      rw [Windows.window, Nat.succ_mul, ← List.drop_drop, List.take_append_drop]
    rw [List.range'_succ, EntryBatch.unsealSeals]
    cases hs : s.isSealed k
    · simp only [hget, Except.ok_bind, Bool.false_eq_true, if_false, pure_bind,
        window_of_unsealed h (show k < sealsPerLoad by omega) hs, unsealSeals_range' h hl q (k + 1) (by omega), hnext]
      rfl
    · simp only [hget, Except.ok_bind, if_true, unseal_window h hl (show k < sealsPerLoad by omega),
        unsealSeals_range' h hl q (k + 1) (by omega), hnext]
      rfl

/-- `to_unsealed_data` of the image returns `d`, as one chunk. -/
theorem toUnsealedData_eq (h : SealedImage s sealedIn d w) (hl : LooksUp s sealedIn) :
    EntryBatch.toUnsealedData ⟨s, .complete w⟩ = .ok (some [d]) := by
  simp only [EntryBatch.toUnsealedData, List.range_eq_range', unsealSeals_range' h hl sealsPerLoad 0 (Nat.zero_add _),
    Nat.zero_mul, List.drop_zero, Except.ok_bind]
  rfl

/-- Writing over a seal its sealing in the context `sealedIn` names for it
keeps the image, under a seal info that differs from the old one in its
contexts only, and in its miner id only while no seal is sealed. -/
theorem write (h : SealedImage s sealedIn d w) {s' : SealInfo} {i : Nat} (hi : i < sealsPerLoad)
    (hbit : s'.bitmap = s.bitmap) (hload : s'.loadIndex = s.loadIndex)
    (hminer : ∀ j, s.isSealed j = true → s'.minerId = s.minerId) :
    SealedImage (s'.markSealed i) sealedIn d
      (w.take (i * bytesPerSeal) ++ ZgsSeal.sealLoop (s'.firstMask (sealedIn i) i) (Windows.window bytesPerSeal d i) ++
        w.drop (i * bytesPerSeal + bytesPerSeal)) := by
  have hx : (ZgsSeal.sealLoop (s'.firstMask (sealedIn i) i) (Windows.window bytesPerSeal d i)).length = bytesPerSeal := by
    rw [ZgsSeal.length_sealLoop, length_window_seal h.length_data hi]
  refine ⟨h.length_data, ?_, fun j hj => ?_⟩
  · rw [List.length_append, List.length_append, List.length_take, List.length_drop, hx, h.length_image]
    unfold sealsPerLoad bytesPerSeal bytesPerLoad at *
    omega
  · rw [Windows.window_write (h.length_image.trans bytesPerLoad_eq_seals) hx hi j]
    by_cases hji : j = i
    · subst hji
      have hsealed : (s'.markSealed j).isSealed j = true := by simp [SealInfo.isSealed, SealInfo.markSealed]
      rw [hsealed, if_pos rfl, if_pos rfl, SealInfo.firstMask_markSealed]
    · -- another seal keeps its bytes, its bit and its mask
      have hbit' : (s'.markSealed i).isSealed j = s.isSealed j := by
        simp [SealInfo.isSealed, SealInfo.markSealed, hji, hbit]
      rw [if_neg hji, h.window_eq j hj, hbit']
      cases hs : s.isSealed j
      · rfl
      · rw [if_pos rfl, if_pos rfl, SealInfo.firstMask_markSealed]
        simp only [SealInfo.firstMask, SealInfo.globalSealSector, hload, hminer j hs]

end SealedImage

/-- A read of one whole seal returns it as `SealInfo::unseal` gives it, in
whatever context the seal info looks up for it. -/
theorem getUnsealedData_seal {s : SealInfo} {w : List UInt8} (hw : w.length = bytesPerLoad) {k : Nat}
    (hk : k < sealsPerLoad) :
    EntryBatch.getUnsealedData ⟨s, .complete w⟩ (k * sectorsPerSeal) sectorsPerSeal =
      (s.unseal (Windows.window bytesPerSeal w k) k).map some := by
  have hbytes : k * sectorsPerSeal * bytesPerSector = k * bytesPerSeal := by
    unfold sectorsPerSeal bytesPerSector bytesPerSeal
    omega
  have hget := EntryBatchData.get_complete hw (a := k * bytesPerSeal) (L := sectorsPerSeal * bytesPerSector)
    (by unfold sealsPerLoad sectorsPerSeal bytesPerSector bytesPerSeal bytesPerLoad at *; omega)
  rw [show sectorsPerSeal * bytesPerSector = bytesPerSeal from rfl, ← Windows.window] at hget
  have hinc : (bytesPerLoad - k * bytesPerSeal) % bytesPerSeal = 0 := by
    unfold sealsPerLoad bytesPerSeal bytesPerLoad at *
    omega
  have hlen := length_window_seal hw hk
  have hne : Windows.window bytesPerSeal w k ≠ [] := by
    rw [← List.length_pos_iff, hlen]
    decide
  have hrest : EntryBatch.unsealChunks s (k + 1) ((Windows.window bytesPerSeal w k).drop bytesPerSeal) = .ok [] := by
    rw [List.drop_of_length_le (by rw [hlen]), EntryBatch.unsealChunks, dif_pos rfl]
  simp only [EntryBatch.getUnsealedData, Nat.mul_mod_left, if_true, Bool.false_eq_true, if_false, hbytes,
    show sectorsPerSeal * bytesPerSector = bytesPerSeal from rfl, hget, Except.ok_bind, pure_bind, hinc,
    List.drop_zero, List.take_zero, Nat.add_zero, List.nil_append, hlen, Nat.mul_div_cancel _ (by decide : 0 < bytesPerSeal)]
  rw [if_pos (by decide), EntryBatch.unsealChunks, dif_neg hne, List.take_of_length_le (by rw [hlen]), hrest]
  cases s.unseal (Windows.window bytesPerSeal w k) k with
  | error e => rfl
  | ok chunk => simp [Except.map]

end ZgStorage

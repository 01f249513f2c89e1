import Mathlib.Data.Finset.Basic
import ZgStorage.AppendMerkle.NodeManager
import ZgStorage.Framework.EnumerableSet
import ZgStorage.Framework.Except

/-!
# The sync store's queues of transactions

`auto_sync/tx_store.rs`, `auto_sync/sync_store.rs`: a `TxStore` keeps a set
of transaction seqs in the configuration column of the data database, as an
enumerable map: a count, the seq at each index below it, and the index of
each seq. `remove` moves the last seq into the removed one's index. A
`CachedTxStore` keeps, besides, an in-memory cache of recently added seqs to
draw from first. `SyncStore` keeps two of them, the pending queue and the
ready one, and moves a seq between them in one `ConfigTx`, whose writes both
stores stage from the store as it was before.

Random draws are arguments: `draw % n` stands for a uniform draw below `n`.

`Queues` is what the two stores are for: two sets, and what each call does
to them. `Holds` says that a store's keys hold a list of seqs, in index
order; `SyncInv` that the two lists are the two sets, disjoint, with the
cache in the ready one.

* `Holds.add`, `Holds.remove`: one call on a `TxStore`, the last seq swapped
  into the removed index;
* `SyncInv.call`: one call on the sync store does to the sets what `Queues`
  says, and returns what it says, without panicking;
* `run_refines`: so does every sequence of calls.
-/

namespace ZgStorage

namespace AutoSync

/-- The keys of the configuration column the sync store reads and writes:
`TxStore`'s three formats, each with the store's name, and the two sequence
keys of `SyncStore`. Distinct keys stand for distinct strings. -/
inductive ConfigKey where
  | count (name : String)
  | seqToIndex (name : String) (txSeq : Nat)
  | indexToSeq (name : String) (index : Nat)
  | nextTxSeq
  | maxTxSeq
  deriving DecidableEq

/-- The name of the `TxStore` whose key it is, if any. -/
def ConfigKey.txStoreName : ConfigKey → Option String
  | .count name | .seqToIndex name _ | .indexToSeq name _ => some name
  | .nextTxSeq | .maxTxSeq => none

/-- The configuration column of the data database, with its values decoded. -/
abbrev ConfigStore := ConfigKey → Option Nat

/-- `DBOp` on the configuration column. -/
inductive ConfigOp where
  | insert (key : ConfigKey) (value : Nat)
  | delete (key : ConfigKey)

/-- `ConfigTx`: its operations in order. -/
abbrev ConfigTx := List ConfigOp

/-- The key an operation writes. -/
def ConfigOp.key : ConfigOp → ConfigKey
  | .insert k _ | .delete k => k

def ConfigOp.apply (store : ConfigStore) : ConfigOp → ConfigStore
  | .insert k v => Function.update store k (some v)
  | .delete k => Function.update store k none

/-- `exec_configs`: the operations of the transaction, in order, at once. -/
def execConfigs (store : ConfigStore) (tx : ConfigTx) : ConfigStore := tx.foldl ConfigOp.apply store

@[simp] theorem execConfigs_nil (store : ConfigStore) : execConfigs store [] = store := rfl

@[simp] theorem execConfigs_cons (store : ConfigStore) (op : ConfigOp) (tx : ConfigTx) :
    execConfigs store (op :: tx) = execConfigs (op.apply store) tx := rfl

theorem execConfigs_append (store : ConfigStore) (tx tx' : ConfigTx) :
    execConfigs store (tx ++ tx') = execConfigs (execConfigs store tx) tx' :=
  List.foldl_append

theorem apply_of_key_ne {op : ConfigOp} {k : ConfigKey} (h : op.key ≠ k) (store : ConfigStore) :
    op.apply store k = store k := by
  cases op <;> exact Function.update_of_ne (Ne.symm h) _ _

/-- A transaction that writes no operation on a key keeps it. -/
theorem execConfigs_of_forall_ne {tx : ConfigTx} {k : ConfigKey} (h : ∀ op ∈ tx, op.key ≠ k)
    (store : ConfigStore) : execConfigs store tx k = store k := by
  induction tx generalizing store with
  | nil => rfl
  | cons op tx ih =>
    rw [execConfigs_cons, ih (fun op' hop' => h op' (List.mem_cons_of_mem op hop')),
      apply_of_key_ne (h op List.mem_cons_self)]

/-- What a transaction leaves at a key depends on the store at that key only. -/
theorem execConfigs_congr {store₁ store₂ : ConfigStore} {k : ConfigKey} (h : store₁ k = store₂ k)
    (tx : ConfigTx) : execConfigs store₁ tx k = execConfigs store₂ tx k := by
  induction tx generalizing store₁ store₂ with
  | nil => exact h
  | cons op tx ih =>
    apply ih
    cases op with
    | insert k' v | delete k' =>
      simp only [ConfigOp.apply, Function.update_apply]
      split_ifs
      · rfl
      · exact h

/-- Writes of one store's keys are not another's. -/
theorem key_ne_of_key {tx : ConfigTx} {a b : String} (hkey : ∀ op ∈ tx, op.key.txStoreName = some a)
    (hne : a ≠ b) : ∀ op ∈ tx, op.key.txStoreName ≠ some b :=
  fun op hop he => hne (Option.some_inj.mp ((hkey op hop).symm.trans he))

/-- What a random draw from `S` may return: an element, or nothing when `S`
is empty. -/
def Draws (S : Finset Nat) : Option Nat → Prop
  | none => S = ∅
  | some v => v ∈ S

/-- `TxStore`: the name its keys are formatted with. -/
structure TxStore where
  name : String

namespace TxStore

/-- `index_of`. -/
def indexOf (t : TxStore) (store : ConfigStore) (txSeq : Nat) : Option Nat := store (.seqToIndex t.name txSeq)

/-- `at`. -/
def «at» (t : TxStore) (store : ConfigStore) (index : Nat) : Option Nat := store (.indexToSeq t.name index)

/-- `has`. -/
def has (t : TxStore) (store : ConfigStore) (txSeq : Nat) : Bool := (t.indexOf store txSeq).isSome

/-- `count`: `0` when the key is absent. -/
def count (t : TxStore) (store : ConfigStore) : Nat := (store (.count t.name)).getD 0

/-- `add`: whether the seq is new, and the writes, which the caller appends
to its transaction or executes at once (`db_tx`). -/
def add (t : TxStore) (store : ConfigStore) (txSeq : Nat) : Bool × ConfigTx :=
  if t.has store txSeq then (false, [])
  else
    let count := t.count store
    (true, [.insert (.indexToSeq t.name count) txSeq, .insert (.seqToIndex t.name txSeq) count,
      .insert (.count t.name) (count + 1)])

/-- `random`, for the draw `draw % count`. -/
def random (t : TxStore) (store : ConfigStore) (draw : Nat) : Except Error (Option Nat) :=
  let count := t.count store
  if count = 0 then .ok none
  else
    match t.at store (draw % count) with
    | some txSeq => .ok (some txSeq)
    | none => .error (.panic "data corruption")

/-- `remove`: whether the seq was there, and the writes. The last seq moves
into the removed one's index, unless the removed one is the last. -/
def remove (t : TxStore) (store : ConfigStore) (txSeq : Nat) : Except Error (Bool × ConfigTx) :=
  match t.indexOf store txSeq with
  | none => .ok (false, [])
  | some index =>
    let count := t.count store
    if count = 0 then .error (.panic "data corruption")
    else
      let tx : ConfigTx := [.insert (.count t.name) (count - 1), .delete (.seqToIndex t.name txSeq)]
      if index = count - 1 then .ok (true, tx ++ [.delete (.indexToSeq t.name index)])
      else
        match t.at store (count - 1) with
        | none => .error (.panic "data corruption")
        | some lastTx =>
          .ok (true, tx ++ [.insert (.indexToSeq t.name index) lastTx, .delete (.indexToSeq t.name (count - 1)),
            .insert (.seqToIndex t.name lastTx) index])

/-! ### What the keys of a store hold -/

/-- The keys of `t` in `store` hold the seqs `L`, in index order: the count is
its length, index `i` holds `L[i]`, and each seq's index is the one it is at. -/
def Holds (t : TxStore) (store : ConfigStore) (L : List Nat) : Prop :=
  EnumerableSet.Enumerates (t.count store) (t.at store) (t.indexOf store) L

/-- The keys of `t` in `store` hold the set `S`. -/
def Stores (t : TxStore) (store : ConfigStore) (S : Finset Nat) : Prop :=
  ∃ L, t.Holds store L ∧ L.toFinset = S

variable {t : TxStore} {store : ConfigStore} {L : List Nat} {S : Finset Nat}

/-- The reads of `t` see its own keys only. -/
theorem Holds.congr {store' : ConfigStore} (h : t.Holds store L)
    (hs : ∀ k, k.txStoreName = some t.name → store' k = store k) : t.Holds store' L := by
  have hc : t.count store' = t.count store := by rw [count, count, hs (.count t.name) rfl]
  have ha : t.at store' = t.at store := funext fun i => hs (.indexToSeq t.name i) rfl
  have hi : t.indexOf store' = t.indexOf store := funext fun x => hs (.seqToIndex t.name x) rfl
  unfold Holds
  rw [hc, ha, hi]
  exact h

/-- No key of `t` holds nothing. -/
theorem holds_nil (hs : ∀ k, k.txStoreName = some t.name → store k = none) : t.Holds store [] where
  count_eq := by rw [count, hs (.count t.name) rfl]; rfl
  nodup := List.nodup_nil
  get_eq i := hs (.indexToSeq t.name i) rfl
  indexOf_eq x i := by
    rw [indexOf, hs (.seqToIndex t.name x) rfl]
    simp

theorem Stores.congr {store' : ConfigStore} (h : t.Stores store S)
    (hs : ∀ k, k.txStoreName = some t.name → store' k = store k) : t.Stores store' S :=
  let ⟨L, hL, hS⟩ := h
  ⟨L, hL.congr hs, hS⟩

/-- A transaction that writes only other keys keeps what `t` holds. -/
theorem Stores.execConfigs_of_other {tx : ConfigTx} (h : t.Stores store S)
    (htx : ∀ op ∈ tx, op.key.txStoreName ≠ some t.name) : t.Stores (execConfigs store tx) S :=
  h.congr fun _ hk => execConfigs_of_forall_ne (fun op hop he => htx op hop (he ▸ hk)) store

/-- Writes of other keys staged before `t`'s own do not change what they
leave `t` holding. -/
theorem Stores.execConfigs_append_of_other {tx tx' : ConfigTx} (h : t.Stores (execConfigs store tx') S)
    (htx : ∀ op ∈ tx, op.key.txStoreName ≠ some t.name) : t.Stores (execConfigs store (tx ++ tx')) S := by
  refine h.congr fun k hk => ?_
  rw [execConfigs_append]
  exact execConfigs_congr (execConfigs_of_forall_ne (fun op hop he => htx op hop (he ▸ hk)) store) tx'

theorem Holds.has_iff (h : t.Holds store L) (x : Nat) : t.has store x = true ↔ x ∈ L :=
  h.isSome_indexOf_iff x

theorem Stores.has_iff (h : t.Stores store S) (x : Nat) : t.has store x = true ↔ x ∈ S := by
  obtain ⟨L, hL, rfl⟩ := h
  rw [hL.has_iff, List.mem_toFinset]

/-- `add` writes `t`'s keys only. -/
theorem add_key (x : Nat) : ∀ op ∈ (t.add store x).2, op.key.txStoreName = some t.name := by
  unfold add
  split <;> simp [ConfigOp.key, ConfigKey.txStoreName]

/-- `add` of a new seq pushes it at index `count`. -/
theorem Holds.add_of_not_mem (h : t.Holds store L) {x : Nat} (hx : x ∉ L) :
    (t.add store x).1 = true ∧ t.Holds (execConfigs store (t.add store x).2) (L ++ [x]) := by
  have hn : ¬t.has store x = true := fun hh => hx ((h.has_iff x).mp hh)
  rw [add, if_neg hn]
  refine ⟨rfl, ?_⟩
  unfold Holds
  convert h.push hx using 1
  · simp [count, ConfigOp.apply]
  · funext i
    simp [«at», ConfigOp.apply, Function.update_apply]
  · funext y
    simp [indexOf, ConfigOp.apply, Function.update_apply]

/-- `add`: whether the seq is new, and the set it leaves. -/
theorem Stores.add (h : t.Stores store S) (x : Nat) :
    (t.add store x).1 = decide (x ∉ S) ∧ t.Stores (execConfigs store (t.add store x).2) (insert x S) := by
  obtain ⟨L, hL, rfl⟩ := h
  by_cases hx : x ∈ L
  · -- already there: no writes
    have hxS : x ∈ L.toFinset := List.mem_toFinset.mpr hx
    rw [TxStore.add, if_pos ((hL.has_iff x).mpr hx), Finset.insert_eq_of_mem hxS]
    exact ⟨by simp [hxS], L, hL, rfl⟩
  · obtain ⟨hadd, hL'⟩ := hL.add_of_not_mem hx
    refine ⟨by simp [hadd, hx], L ++ [x], hL', Finset.ext fun y => ?_⟩
    simp only [List.mem_toFinset, List.mem_append, List.mem_singleton, Finset.mem_insert]
    exact or_comm

theorem Holds.remove_of_not_mem (h : t.Holds store L) {x : Nat} (hx : x ∉ L) :
    t.remove store x = .ok (false, []) := by
  have hnone : t.indexOf store x = none := by
    rw [← Option.not_isSome_iff_eq_none, h.isSome_indexOf_iff]
    exact hx
  rw [remove, hnone]

/-- `remove` of the seq at index `k`: the last seq moves into `k`, unless it
is the one removed. -/
theorem Holds.remove_of_index (h : t.Holds store L) {x k : Nat} (hk : t.indexOf store x = some k) :
    ∃ tx, t.remove store x = .ok (true, tx) ∧ (∀ op ∈ tx, op.key.txStoreName = some t.name) ∧
      t.Holds (execConfigs store tx) (EnumerableSet.swapRemove L k) := by
  have hkn : k < t.count store := h.index_lt hk
  by_cases hlast : k = t.count store - 1
  · -- the last seq: its entry goes
    refine ⟨[.insert (.count t.name) (t.count store - 1), .delete (.seqToIndex t.name x),
      .delete (.indexToSeq t.name k)], ?_, ?_, ?_⟩
    · simp [remove, hk, hlast, show t.count store ≠ 0 by omega]
    · simp [ConfigOp.key, ConfigKey.txStoreName]
    · unfold Holds
      convert h.removeLast hk hlast using 1
      · simp [count, ConfigOp.apply]
      · funext i
        simp [«at», ConfigOp.apply, Function.update_apply]
      · funext y
        simp [indexOf, ConfigOp.apply, Function.update_apply]
  · -- any other: the last seq takes its index
    obtain ⟨y, hy⟩ := Option.isSome_iff_exists.mp (h.isSome_get_of_lt (i := t.count store - 1) (by omega))
    refine ⟨[.insert (.count t.name) (t.count store - 1), .delete (.seqToIndex t.name x),
      .insert (.indexToSeq t.name k) y, .delete (.indexToSeq t.name (t.count store - 1)),
      .insert (.seqToIndex t.name y) k], ?_, ?_, ?_⟩
    · simp [remove, hk, hlast, hy, show t.count store ≠ 0 by omega]
    · simp [ConfigOp.key, ConfigKey.txStoreName]
    · unfold Holds
      convert h.swapLast hk hlast hy using 1
      · simp [count, ConfigOp.apply]
      · funext i
        simp [«at», ConfigOp.apply, Function.update_apply]
      · funext z
        simp [indexOf, ConfigOp.apply, Function.update_apply]

/-- `remove`: whether the seq was there, and the set it leaves. -/
theorem Stores.remove (h : t.Stores store S) (x : Nat) :
    ∃ tx, t.remove store x = .ok (decide (x ∈ S), tx) ∧ (∀ op ∈ tx, op.key.txStoreName = some t.name) ∧
      t.Stores (execConfigs store tx) (S.erase x) := by
  obtain ⟨L, hL, rfl⟩ := h
  by_cases hx : x ∈ L
  · obtain ⟨k, hk⟩ := Option.isSome_iff_exists.mp ((hL.isSome_indexOf_iff x).mpr hx)
    obtain ⟨tx, hrem, hkey, hL'⟩ := hL.remove_of_index hk
    obtain ⟨hkL, hxk⟩ := List.getElem_of_getElem? ((hL.indexOf_eq x k).mp hk)
    refine ⟨tx, by simp [hrem, hx], hkey, _, hL', Finset.ext fun y => ?_⟩
    rw [List.mem_toFinset, EnumerableSet.mem_swapRemove hL.nodup hkL, Finset.mem_erase, List.mem_toFinset, hxk]
    exact and_comm
  · -- not there: no writes
    refine ⟨[], by simp [hL.remove_of_not_mem hx, hx], by simp, L, hL, ?_⟩
    rw [Finset.erase_eq_of_notMem (by simpa using hx)]

theorem Holds.random (h : t.Holds store L) (draw : Nat) : t.random store draw = .ok L[draw % L.length]? := by
  unfold TxStore.random
  rw [h.count_eq]
  dsimp only
  split_ifs with h0
  · rw [List.eq_nil_of_length_eq_zero h0]
    rfl
  · rw [h.get_eq, List.getElem?_eq_getElem (Nat.mod_lt _ (by omega))]

/-- `random` draws from the set, without panicking. -/
theorem Stores.random (h : t.Stores store S) (draw : Nat) : ∃ v, t.random store draw = .ok v ∧ Draws S v := by
  obtain ⟨L, hL, rfl⟩ := h
  refine ⟨_, hL.random draw, ?_⟩
  cases hv : L[draw % L.length]? with
  | none =>
    -- only an empty list has no seq at the drawn index
    have h0 : L.length = 0 := by
      have := List.getElem?_eq_none_iff.mp hv
      by_contra hne
      exact absurd (Nat.mod_lt draw (Nat.pos_of_ne_zero hne)) (by omega)
    show L.toFinset = ∅
    rw [List.eq_nil_of_length_eq_zero h0]
    rfl
  | some v => exact List.mem_toFinset.mpr (List.mem_of_getElem? hv)

end TxStore

/-- An element of a hash set picked at random (`iter().choose`), for a draw. -/
def choose (set : List Nat) (draw : Nat) : Option Nat := set[draw % set.length]?

/-- `CachedTxStore`; the cache, a `HashSet`, is a list without repeats. -/
structure CachedTxStore where
  txStore : TxStore
  cacheCap : Nat
  cache : List Nat

namespace CachedTxStore

/-- `has`. -/
def has (c : CachedTxStore) (store : ConfigStore) (txSeq : Nat) : Bool := c.txStore.has store txSeq

/-- `count`: the seqs, and the cached ones. -/
def count (c : CachedTxStore) (store : ConfigStore) : Nat × Nat :=
  if c.cacheCap = 0 then (c.txStore.count store, 0) else (c.txStore.count store, c.cache.length)

/-- `add`: a new seq goes into the cache, and one drawn at random leaves it
when it is over capacity. -/
def add (c : CachedTxStore) (store : ConfigStore) (txSeq draw : Nat) : CachedTxStore × Bool × ConfigTx :=
  if c.cacheCap = 0 then (c, c.txStore.add store txSeq)
  else
    let added := c.txStore.add store txSeq
    if added.1 then
      let cache := c.cache.insert txSeq
      let cache := if cache.length > c.cacheCap then
          match choose cache draw with
          | some popped => cache.erase popped
          | none => cache
        else cache
      ({ c with cache := cache }, true, added.2)
    else (c, false, added.2)

/-- `random`: a cached seq if there is one. -/
def random (c : CachedTxStore) (store : ConfigStore) (draw : Nat) : Except Error (Option Nat) :=
  if c.cacheCap = 0 then c.txStore.random store draw
  else
    match choose c.cache draw with
    | some v => .ok (some v)
    | none => c.txStore.random store draw

/-- `remove`. -/
def remove (c : CachedTxStore) (store : ConfigStore) (txSeq : Nat) :
    Except Error (CachedTxStore × Bool × ConfigTx) := do
  let removed ← c.txStore.remove store txSeq
  if c.cacheCap = 0 then return (c, removed)
  if removed.1 then return ({ c with cache := c.cache.erase txSeq }, true, removed.2)
  return (c, false, removed.2)

/-! ### The cache -/

/-- The cache holds seqs of `S`, without repeats, and nothing when the
capacity is zero. -/
structure Inv (c : CachedTxStore) (S : Finset Nat) : Prop where
  nodup : c.cache.Nodup
  subset : ∀ x ∈ c.cache, x ∈ S
  nil_of_cap : c.cacheCap = 0 → c.cache = []

variable {c : CachedTxStore} {store : ConfigStore} {S : Finset Nat}

theorem Inv.mono {T : Finset Nat} (h : c.Inv S) (hST : S ⊆ T) : c.Inv T :=
  ⟨h.nodup, fun x hx => hST (h.subset x hx), h.nil_of_cap⟩

/-- A cache taken from a list of seqs of `S` without repeats. -/
theorem Inv.of_sublist {l cache : List Nat} (hl : l.Nodup) (hS : ∀ x ∈ l, x ∈ S) (hcap : c.cacheCap ≠ 0)
    (hsub : cache.Sublist l) : Inv { c with cache := cache } S :=
  ⟨hl.sublist hsub, fun x hx => hS x (hsub.subset hx), fun h0 => absurd h0 hcap⟩

theorem add_txStore (x draw : Nat) : (c.add store x draw).1.txStore = c.txStore := by
  unfold add
  dsimp only
  split_ifs <;> rfl

/-- The cache stages the writes of its `TxStore`. -/
theorem add_snd (x draw : Nat) : (c.add store x draw).2 = c.txStore.add store x := by
  unfold add
  dsimp only
  by_cases hcap : c.cacheCap = 0
  · rw [if_pos hcap]
  · rw [if_neg hcap]
    by_cases hadd : (c.txStore.add store x).1 = true
    · rw [if_pos hadd]
      exact Prod.ext hadd.symm rfl
    · rw [if_neg hadd]
      exact Prod.ext ((Bool.not_eq_true _).mp hadd).symm rfl

theorem add_of_not_added {x : Nat} (hadd : (c.txStore.add store x).1 = false) (draw : Nat) :
    (c.add store x draw).1 = c := by
  unfold add
  dsimp only
  split_ifs <;> simp_all

/-- Whatever `add` leaves in the cache is in the set with the seq. -/
theorem Inv.add (h : c.Inv S) (x draw : Nat) : (c.add store x draw).1.Inv (insert x S) := by
  have hins : ∀ y ∈ c.cache.insert x, y ∈ insert x S := by
    intro y hy
    rcases List.mem_insert_iff.mp hy with rfl | hy
    · exact Finset.mem_insert_self y S
    · exact Finset.mem_insert_of_mem (h.subset y hy)
  unfold CachedTxStore.add
  by_cases hcap : c.cacheCap = 0
  · rw [if_pos hcap]
    exact h.mono (Finset.subset_insert x S)
  · rw [if_neg hcap]
    dsimp only
    split_ifs
    · -- over capacity: a drawn seq leaves, or none when the draw finds none
      split
      · exact Inv.of_sublist h.nodup.insert hins hcap List.erase_sublist
      · exact Inv.of_sublist h.nodup.insert hins hcap (List.Sublist.refl _)
    · exact Inv.of_sublist h.nodup.insert hins hcap (List.Sublist.refl _)
    · exact h.mono (Finset.subset_insert x S)

/-- `remove` takes a removed seq out of the cache too. -/
theorem Inv.remove (h : c.Inv S) {x : Nat} {r : Bool × ConfigTx} (hr : c.txStore.remove store x = .ok r)
    (hrS : r.1 = decide (x ∈ S)) :
    ∃ c', c.remove store x = .ok (c', r) ∧ c'.txStore = c.txStore ∧ c'.Inv (S.erase x) := by
  unfold CachedTxStore.remove
  rw [hr, Except.ok_bind]
  by_cases hcap : c.cacheCap = 0
  · -- no capacity, no cache
    rw [if_pos hcap]
    refine ⟨c, rfl, rfl, ⟨h.nodup, fun y hy => ?_, h.nil_of_cap⟩⟩
    rw [h.nil_of_cap hcap] at hy
    cases hy
  · rw [if_neg hcap]
    by_cases hx : x ∈ S
    · have hr1 : r.1 = true := by rw [hrS]; exact decide_eq_true hx
      rw [if_pos hr1]
      refine ⟨{ c with cache := c.cache.erase x }, by rw [← hr1]; rfl, rfl,
        ⟨h.nodup.erase x, fun y hy => ?_, fun h0 => absurd h0 hcap⟩⟩
      exact Finset.mem_erase.mpr ⟨(h.nodup.mem_erase_iff.mp hy).1, h.subset y (h.nodup.mem_erase_iff.mp hy).2⟩
    · have hr1 : r.1 = false := by rw [hrS]; exact decide_eq_false hx
      rw [if_neg (by rw [hr1]; exact Bool.false_ne_true), Finset.erase_eq_of_notMem hx]
      exact ⟨c, by rw [← hr1]; rfl, rfl, h⟩

/-- `random` draws a cached seq first, from the set, without panicking. -/
theorem Inv.random (h : c.Inv S) (hs : c.txStore.Stores store S) (draw : Nat) :
    ∃ v, c.random store draw = .ok v ∧ Draws S v := by
  unfold CachedTxStore.random
  split_ifs with hcap
  · exact hs.random draw
  · cases hv : choose c.cache draw with
    | some v => exact ⟨some v, rfl, h.subset v (List.mem_of_getElem? hv)⟩
    | none => exact hs.random draw

end CachedTxStore

/-- `Queue`. -/
inductive Queue where
  | ready
  | pending
  deriving DecidableEq

/-- `InsertResult`. -/
inductive InsertResult where
  | newAdded
  | alreadyExists
  | upgraded
  | downgraded
  deriving DecidableEq

/-- A call of the sync store, with the random draw it makes. -/
inductive Call where
  | insert (txSeq : Nat) (queue : Queue) (draw : Nat)
  | upgrade (txSeq draw : Nat)
  | remove (txSeq : Nat)
  | random (draw : Nat)

/-- What a call returns. -/
inductive Reply where
  | inserted (result : InsertResult)
  | upgraded (added : Bool)
  | removed (queue : Option Queue)
  | picked (txSeq : Option Nat)
  deriving DecidableEq

/-! ## What the sync store is for -/

/-- The two queues, as sets of seqs. -/
structure Queues where
  ready : Finset Nat
  pending : Finset Nat

namespace Queues

/-- Putting a seq in a queue takes it out of the other. -/
def insert (q : Queues) (txSeq : Nat) : Queue → Queues × InsertResult
  | .ready =>
    if txSeq ∈ q.ready then (q, .alreadyExists)
    else (⟨Insert.insert txSeq q.ready, q.pending.erase txSeq⟩, if txSeq ∈ q.pending then .upgraded else .newAdded)
  | .pending =>
    if txSeq ∈ q.pending then (q, .alreadyExists)
    else (⟨q.ready.erase txSeq, Insert.insert txSeq q.pending⟩, if txSeq ∈ q.ready then .downgraded else .newAdded)

/-- A pending seq moves to the ready queue. -/
def upgrade (q : Queues) (txSeq : Nat) : Queues × Bool :=
  if txSeq ∈ q.pending then (⟨Insert.insert txSeq q.ready, q.pending.erase txSeq⟩, true) else (q, false)

/-- A seq leaves the queue it is in, and says which. -/
def remove (q : Queues) (txSeq : Nat) : Queues × Option Queue :=
  if txSeq ∈ q.ready then (⟨q.ready.erase txSeq, q.pending⟩, some .ready)
  else if txSeq ∈ q.pending then (⟨q.ready, q.pending.erase txSeq⟩, some .pending)
  else (q, none)

/-- What a random pick may return: a ready seq when there is one, else a
pending one, else nothing. -/
def Picks (q : Queues) (v : Option Nat) : Prop :=
  if q.ready = ∅ then Draws q.pending v else Draws q.ready v

/-- One call on the queues, and what it returns. -/
inductive Step : Queues → Call → Reply → Queues → Prop
  | insert (q : Queues) (txSeq : Nat) (queue : Queue) (draw : Nat) :
      Step q (.insert txSeq queue draw) (.inserted (q.insert txSeq queue).2) (q.insert txSeq queue).1
  | upgrade (q : Queues) (txSeq draw : Nat) :
      Step q (.upgrade txSeq draw) (.upgraded (q.upgrade txSeq).2) (q.upgrade txSeq).1
  | remove (q : Queues) (txSeq : Nat) :
      Step q (.remove txSeq) (.removed (q.remove txSeq).2) (q.remove txSeq).1
  | random (q : Queues) (draw : Nat) {v : Option Nat} : q.Picks v → Step q (.random draw) (.picked v) q

/-- Calls one after another on the queues, and what they return. -/
inductive Runs : Queues → List Call → List Reply → Queues → Prop
  | nil (q : Queues) : Runs q [] [] q
  | cons {q q' q'' : Queues} {c : Call} {r : Reply} {cs : List Call} {rs : List Reply} :
      Step q c r q' → Runs q' cs rs q'' → Runs q (c :: cs) (r :: rs) q''

end Queues

/-- `SyncStore`, over the configuration column of its store. -/
structure SyncStore where
  store : ConfigStore
  pendingTxs : TxStore
  readyTxs : CachedTxStore

namespace SyncStore

/-- `SyncStore::new_with_name`. -/
def newWithName (store : ConfigStore) (readyTxsCacheCap : Nat) (pending ready : String) : SyncStore :=
  ⟨store, ⟨pending⟩, ⟨⟨ready⟩, readyTxsCacheCap, []⟩⟩

/-- `SyncStore::new`. -/
def new (store : ConfigStore) (readyTxsCacheCap : Nat) : SyncStore :=
  newWithName store readyTxsCacheCap "pending" "ready"

/-- `stat`: the pending seqs, the ready ones, and the cached ready ones. -/
def stat (s : SyncStore) : Nat × Nat × Nat :=
  (s.pendingTxs.count s.store, s.readyTxs.count s.store)

/-- `get_tx_seq_range`. -/
def getTxSeqRange (s : SyncStore) : Option Nat × Option Nat := (s.store .nextTxSeq, s.store .maxTxSeq)

/-- `set_next_tx_seq`. -/
def setNextTxSeq (s : SyncStore) (txSeq : Nat) : SyncStore :=
  { s with store := Function.update s.store .nextTxSeq (some txSeq) }

/-- `set_max_tx_seq`. -/
def setMaxTxSeq (s : SyncStore) (txSeq : Nat) : SyncStore :=
  { s with store := Function.update s.store .maxTxSeq (some txSeq) }

/-- `contains`. -/
def contains (s : SyncStore) (txSeq : Nat) : Option Queue :=
  if s.readyTxs.has s.store txSeq then some .ready
  else if s.pendingTxs.has s.store txSeq then some .pending
  else none

/-- `insert`: both stores stage their writes from the store as it was, and
one transaction executes them. -/
def insert (s : SyncStore) (txSeq : Nat) (queue : Queue) (draw : Nat) : Except Error (SyncStore × InsertResult) :=
  match queue with
  | .ready =>
    let added := s.readyTxs.add s.store txSeq draw
    if !added.2.1 then .ok ({ s with readyTxs := added.1 }, .alreadyExists)
    else do
      let removed ← s.pendingTxs.remove s.store txSeq
      return ({ s with store := execConfigs s.store (added.2.2 ++ removed.2), readyTxs := added.1 },
        if removed.1 then .upgraded else .newAdded)
  | .pending =>
    let added := s.pendingTxs.add s.store txSeq
    if !added.1 then .ok (s, .alreadyExists)
    else do
      let removed ← s.readyTxs.remove s.store txSeq
      return ({ s with store := execConfigs s.store (added.2 ++ removed.2.2), readyTxs := removed.1 },
        if removed.2.1 then .downgraded else .newAdded)

/-- `upgrade`. -/
def upgrade (s : SyncStore) (txSeq draw : Nat) : Except Error (SyncStore × Bool) := do
  let removed ← s.pendingTxs.remove s.store txSeq
  if !removed.1 then return (s, false)
  let added := s.readyTxs.add s.store txSeq draw
  return ({ s with store := execConfigs s.store (removed.2 ++ added.2.2), readyTxs := added.1 }, added.2.1)

/-- `random`: from the ready queue first. -/
def random (s : SyncStore) (draw : Nat) : Except Error (Option Nat) := do
  match ← s.readyTxs.random s.store draw with
  | some val => return some val
  | none => s.pendingTxs.random s.store draw

/-- `remove`: each store executes its writes at once. -/
def remove (s : SyncStore) (txSeq : Nat) : Except Error (SyncStore × Option Queue) := do
  let removed ← s.readyTxs.remove s.store txSeq
  let s := { s with store := execConfigs s.store removed.2.2, readyTxs := removed.1 }
  if removed.2.1 then return (s, some .ready)
  let removed ← s.pendingTxs.remove s.store txSeq
  let s := { s with store := execConfigs s.store removed.2 }
  if removed.1 then return (s, some .pending)
  return (s, none)

/-- One call, and what it returns. -/
def call (s : SyncStore) : Call → Except Error (SyncStore × Reply)
  | .insert txSeq queue draw => do
    let (s, result) ← s.insert txSeq queue draw
    return (s, .inserted result)
  | .upgrade txSeq draw => do
    let (s, added) ← s.upgrade txSeq draw
    return (s, .upgraded added)
  | .remove txSeq => do
    let (s, queue) ← s.remove txSeq
    return (s, .removed queue)
  | .random draw => do
    let txSeq ← s.random draw
    return (s, .picked txSeq)

/-- Calls one after another, each on the store the one before leaves. -/
def run (s : SyncStore) : List Call → Except Error (SyncStore × List Reply)
  | [] => .ok (s, [])
  | c :: cs => do
    let (s, r) ← s.call c
    let (s, rs) ← s.run cs
    return (s, r :: rs)

/-! ## The store refines the queues -/

/-- The keys of the store hold the two queues, disjoint, and the ready
queue's cache holds ready seqs. -/
structure SyncInv (s : SyncStore) (q : Queues) : Prop where
  names_ne : s.pendingTxs.name ≠ s.readyTxs.txStore.name
  pending : s.pendingTxs.Stores s.store q.pending
  ready : s.readyTxs.txStore.Stores s.store q.ready
  disjoint : Disjoint q.pending q.ready
  cache : s.readyTxs.Inv q.ready

/-- A sync store over a column with none of its two stores' keys holds two
empty queues. -/
theorem syncInv_new {store : ConfigStore} (hstore : ∀ k, k.txStoreName.isSome → store k = none) (cap : Nat) :
    SyncInv (new store cap) ⟨∅, ∅⟩ where
  names_ne := by simp [new, newWithName]
  pending := ⟨[], TxStore.holds_nil fun k _ => hstore k (by simp_all), rfl⟩
  ready := ⟨[], TxStore.holds_nil fun k _ => hstore k (by simp_all), rfl⟩
  disjoint := disjoint_bot_left
  cache := ⟨List.nodup_nil, fun _ hx => absurd hx List.not_mem_nil, fun _ => rfl⟩

variable {s : SyncStore} {q : Queues}

theorem SyncInv.insert_ready (hs : SyncInv s q) (txSeq draw : Nat) :
    ∃ s', s.insert txSeq .ready draw = .ok (s', (q.insert txSeq .ready).2) ∧ SyncInv s' (q.insert txSeq .ready).1 := by
  obtain ⟨hadd, hR⟩ := hs.ready.add txSeq
  have hsnd : (s.readyTxs.add s.store txSeq draw).2 = s.readyTxs.txStore.add s.store txSeq :=
    CachedTxStore.add_snd txSeq draw
  have htx : (s.readyTxs.add s.store txSeq draw).1.txStore = s.readyTxs.txStore := CachedTxStore.add_txStore txSeq draw
  by_cases hx : txSeq ∈ q.ready
  · -- already ready: nothing changes
    have hnot : (s.readyTxs.txStore.add s.store txSeq).1 = false := by rw [hadd]; simpa using hx
    have hc := CachedTxStore.add_of_not_added hnot draw
    refine ⟨s, ?_, ?_⟩
    · simp [SyncStore.insert, hsnd, hnot, hc, Queues.insert, hx]
    · simp only [Queues.insert, if_pos hx]
      exact hs
  · -- the ready store's writes and the pending store's, in one transaction
    obtain ⟨tx, hrem, hkey, hP⟩ := hs.pending.remove txSeq
    have hnew : (s.readyTxs.add s.store txSeq draw).2.1 = true := by rw [hsnd, hadd]; simpa using hx
    have hAkey : ∀ op ∈ (s.readyTxs.add s.store txSeq draw).2.2, op.key.txStoreName ≠ some s.pendingTxs.name := by
      rw [hsnd]
      exact key_ne_of_key (TxStore.add_key txSeq) hs.names_ne.symm
    refine ⟨{ s with
      store := execConfigs s.store ((s.readyTxs.add s.store txSeq draw).2.2 ++ tx)
      readyTxs := (s.readyTxs.add s.store txSeq draw).1 }, ?_, ?_⟩
    · simp [SyncStore.insert, hnew, hrem, Queues.insert, hx]
    · simp only [Queues.insert, if_neg hx]
      refine ⟨by simp only [htx]; exact hs.names_ne, hP.execConfigs_append_of_other hAkey, ?_, ?_,
        hs.cache.add txSeq draw⟩
      · simp only [htx, execConfigs_append]
        exact (hsnd ▸ hR).execConfigs_of_other (key_ne_of_key hkey hs.names_ne)
      · exact Finset.disjoint_insert_right.mpr
          ⟨Finset.notMem_erase txSeq _, hs.disjoint.mono_left (Finset.erase_subset _ _)⟩

theorem SyncInv.insert_pending (hs : SyncInv s q) (txSeq draw : Nat) :
    ∃ s', s.insert txSeq .pending draw = .ok (s', (q.insert txSeq .pending).2) ∧
      SyncInv s' (q.insert txSeq .pending).1 := by
  obtain ⟨hadd, hP⟩ := hs.pending.add txSeq
  by_cases hx : txSeq ∈ q.pending
  · -- already pending: nothing changes
    have hnot : (s.pendingTxs.add s.store txSeq).1 = false := by rw [hadd]; simpa using hx
    refine ⟨s, ?_, ?_⟩
    · simp [SyncStore.insert, hnot, Queues.insert, hx]
    · simp only [Queues.insert, if_pos hx]
      exact hs
  · -- the pending store's writes and the ready store's, in one transaction
    obtain ⟨tx, hrem, hkey, hR⟩ := hs.ready.remove txSeq
    obtain ⟨c', hc', htx, hcache⟩ := hs.cache.remove hrem rfl
    have hnew : (s.pendingTxs.add s.store txSeq).1 = true := by rw [hadd]; simpa using hx
    refine ⟨{ s with
      store := execConfigs s.store ((s.pendingTxs.add s.store txSeq).2 ++ tx)
      readyTxs := c' }, ?_, ?_⟩
    · simp [SyncStore.insert, hnew, hc', Queues.insert, hx]
    · simp only [Queues.insert, if_neg hx]
      refine ⟨by simp only [htx]; exact hs.names_ne, ?_, ?_, ?_, hcache⟩
      · simp only [execConfigs_append]
        exact hP.execConfigs_of_other (key_ne_of_key hkey hs.names_ne.symm)
      · simp only [htx]
        exact hR.execConfigs_append_of_other (key_ne_of_key (TxStore.add_key txSeq) hs.names_ne)
      · exact Finset.disjoint_insert_left.mpr
          ⟨Finset.notMem_erase txSeq _, hs.disjoint.mono_right (Finset.erase_subset _ _)⟩

theorem SyncInv.insert (hs : SyncInv s q) (txSeq : Nat) (queue : Queue) (draw : Nat) :
    ∃ s', s.insert txSeq queue draw = .ok (s', (q.insert txSeq queue).2) ∧ SyncInv s' (q.insert txSeq queue).1 := by
  cases queue with
  | ready => exact hs.insert_ready txSeq draw
  | pending => exact hs.insert_pending txSeq draw

theorem SyncInv.upgrade (hs : SyncInv s q) (txSeq draw : Nat) :
    ∃ s', s.upgrade txSeq draw = .ok (s', (q.upgrade txSeq).2) ∧ SyncInv s' (q.upgrade txSeq).1 := by
  obtain ⟨tx, hrem, hkey, hP⟩ := hs.pending.remove txSeq
  by_cases hx : txSeq ∈ q.pending
  · -- a pending seq is not ready, so the ready store adds it
    have hxR : txSeq ∉ q.ready := Finset.disjoint_left.mp hs.disjoint hx
    obtain ⟨hadd, hR⟩ := hs.ready.add txSeq
    have hsnd : (s.readyTxs.add s.store txSeq draw).2 = s.readyTxs.txStore.add s.store txSeq :=
      CachedTxStore.add_snd txSeq draw
    have htx : (s.readyTxs.add s.store txSeq draw).1.txStore = s.readyTxs.txStore :=
      CachedTxStore.add_txStore txSeq draw
    have hnew : (s.readyTxs.add s.store txSeq draw).2.1 = true := by rw [hsnd, hadd]; simpa using hxR
    have hAkey : ∀ op ∈ (s.readyTxs.add s.store txSeq draw).2.2, op.key.txStoreName ≠ some s.pendingTxs.name := by
      rw [hsnd]
      exact key_ne_of_key (TxStore.add_key txSeq) hs.names_ne.symm
    refine ⟨{ s with
      store := execConfigs s.store (tx ++ (s.readyTxs.add s.store txSeq draw).2.2)
      readyTxs := (s.readyTxs.add s.store txSeq draw).1 }, ?_, ?_⟩
    · simp [SyncStore.upgrade, hrem, hx, hnew, Queues.upgrade]
    · simp only [Queues.upgrade, if_pos hx]
      refine ⟨by simp only [htx]; exact hs.names_ne, ?_, ?_, ?_, hs.cache.add txSeq draw⟩
      · simp only [execConfigs_append]
        exact hP.execConfigs_of_other hAkey
      · simp only [htx]
        exact (hsnd ▸ hR).execConfigs_append_of_other (key_ne_of_key hkey hs.names_ne)
      · exact Finset.disjoint_insert_right.mpr
          ⟨Finset.notMem_erase txSeq _, hs.disjoint.mono_left (Finset.erase_subset _ _)⟩
  · -- not pending: nothing changes
    refine ⟨s, ?_, ?_⟩
    · simp [SyncStore.upgrade, hrem, hx, Queues.upgrade]
    · simp only [Queues.upgrade, if_neg hx]
      exact hs

theorem SyncInv.random (hs : SyncInv s q) (draw : Nat) : ∃ v, s.random draw = .ok v ∧ q.Picks v := by
  obtain ⟨v, hv, hdraw⟩ := hs.cache.random hs.ready draw
  cases v with
  | some val =>
    refine ⟨some val, by simp [SyncStore.random, hv], ?_⟩
    simp only [Queues.Picks, if_neg (Finset.ne_empty_of_mem (hdraw : val ∈ q.ready))]
    exact hdraw
  | none =>
    -- no ready seq: a pending one
    obtain ⟨w, hw, hwd⟩ := hs.pending.random draw
    refine ⟨w, by simp [SyncStore.random, hv, hw], ?_⟩
    rw [Queues.Picks, if_pos (show q.ready = ∅ from hdraw)]
    exact hwd

theorem SyncInv.remove (hs : SyncInv s q) (txSeq : Nat) :
    ∃ s', s.remove txSeq = .ok (s', (q.remove txSeq).2) ∧ SyncInv s' (q.remove txSeq).1 := by
  obtain ⟨tx, hrem, hkey, hR⟩ := hs.ready.remove txSeq
  obtain ⟨c', hc', htx, hcache⟩ := hs.cache.remove hrem rfl
  -- the ready store's writes, executed at once, keep the pending store
  have hP₁ := hs.pending.execConfigs_of_other (key_ne_of_key hkey hs.names_ne.symm)
  by_cases hx : txSeq ∈ q.ready
  · refine ⟨{ s with store := execConfigs s.store tx, readyTxs := c' }, ?_, ?_⟩
    · simp [SyncStore.remove, hc', hx, Queues.remove]
    · simp only [Queues.remove, if_pos hx]
      exact ⟨by simp only [htx]; exact hs.names_ne, hP₁, htx ▸ hR,
        hs.disjoint.mono_right (Finset.erase_subset _ _), hcache⟩
  · -- not ready: the pending store removes it from what the ready one left
    obtain ⟨tx', hrem', hkey', hP⟩ := hP₁.remove txSeq
    rw [Finset.erase_eq_of_notMem hx] at hR hcache
    have hq : (q.remove txSeq).1 = ⟨q.ready, q.pending.erase txSeq⟩ := by
      unfold Queues.remove
      rw [if_neg hx]
      split_ifs with hxP
      · rfl
      · rw [Finset.erase_eq_of_notMem hxP]
    refine ⟨{ s with store := execConfigs (execConfigs s.store tx) tx', readyTxs := c' }, ?_, ?_⟩
    · by_cases hxP : txSeq ∈ q.pending <;> simp [SyncStore.remove, hc', hrem', hx, hxP, Queues.remove]
    · rw [hq]
      exact ⟨by simp only [htx]; exact hs.names_ne, hP,
        htx ▸ hR.execConfigs_of_other (key_ne_of_key hkey' hs.names_ne),
        hs.disjoint.mono_left (Finset.erase_subset _ _), hcache⟩

/-- One call does to the queues what `Queues.Step` says, and returns what it
says, without panicking. -/
theorem SyncInv.call (hs : SyncInv s q) (c : Call) :
    ∃ s' r q', s.call c = .ok (s', r) ∧ q.Step c r q' ∧ SyncInv s' q' := by
  cases c with
  | insert txSeq queue draw =>
    obtain ⟨s', h, hs'⟩ := hs.insert txSeq queue draw
    exact ⟨s', _, _, by simp [SyncStore.call, h], .insert q txSeq queue draw, hs'⟩
  | upgrade txSeq draw =>
    obtain ⟨s', h, hs'⟩ := hs.upgrade txSeq draw
    exact ⟨s', _, _, by simp [SyncStore.call, h], .upgrade q txSeq draw, hs'⟩
  | remove txSeq =>
    obtain ⟨s', h, hs'⟩ := hs.remove txSeq
    exact ⟨s', _, _, by simp [SyncStore.call, h], .remove q txSeq, hs'⟩
  | random draw =>
    obtain ⟨v, h, hv⟩ := hs.random draw
    exact ⟨s, _, q, by simp [SyncStore.call, h], .random q draw hv, hs⟩

/-- Every sequence of calls on a store that holds two queues succeeds, does
to the queues and returns what `Queues.Runs` says, and leaves a store that
holds the queues it ends with. -/
theorem run_refines (hs : SyncInv s q) (calls : List Call) :
    ∃ s' replies q', s.run calls = .ok (s', replies) ∧ q.Runs calls replies q' ∧ SyncInv s' q' := by
  induction calls generalizing s q with
  | nil => exact ⟨s, [], q, rfl, .nil q, hs⟩
  | cons c cs ih =>
    obtain ⟨s₁, r, q₁, hcall, hstep, hs₁⟩ := hs.call c
    obtain ⟨s₂, rs, q₂, hrun, hruns, hs₂⟩ := ih hs₁
    exact ⟨s₂, r :: rs, q₂, by simp [SyncStore.run, hcall, hrun], .cons hstep hruns, hs₂⟩

/-- From a fresh store: a seq put in the pending queue, upgraded, picked and
removed. -/
theorem run_refines_fresh :
    SyncInv (new (fun _ => none) 1) ⟨∅, ∅⟩ ∧
      ∃ s' replies q', (new (fun _ => none) 1).run [.insert 5 .pending 0, .upgrade 5 0, .random 0, .remove 5] =
        .ok (s', replies) ∧ Queues.Runs ⟨∅, ∅⟩ [.insert 5 .pending 0, .upgrade 5 0, .random 0, .remove 5] replies q' ∧
        SyncInv s' q' :=
  ⟨syncInv_new (fun _ _ => rfl) 1, run_refines (syncInv_new (fun _ _ => rfl) 1) _⟩

example : ((new (fun _ => none) 1).run [.insert 5 .pending 0, .upgrade 5 0, .random 0, .remove 5]).map Prod.snd =
    .ok [.inserted .newAdded, .upgraded true, .picked (some 5), .removed (some .ready)] := by
  rfl

end SyncStore

end AutoSync

end ZgStorage

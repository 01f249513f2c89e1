import ZgStorage.Storage.Config
import ZgStorage.Framework.AListKeys

/-!
# The peers of a file sync

`SyncPeers` (`controllers/peers.rs`) keeps, for the file a controller
syncs, the peers it knows of, each in a `PeerState` with its shard
configuration and the time of its last change. `add_new_peer_with_config`
enters a peer as `Found`, or again when its configuration changed;
`update_state` moves a peer between two given states, and
`update_state_force` to any; `transition` drops the peers that are
`Disconnected` or that timed out while connecting or disconnecting.
`all_shards_available` asks whether the peers in some states cover every
segment between them.

The `HashMap` of the peers is an `AList`, whose order is the order in which
the model iterates it: the code picks peers at random (`choose`, with a draw
for the random number) and reads the filtered configurations as a set, so no
result depends on that order. Times are milliseconds; the network context
and the file location cache are what the controller asks of them, its
`Effect`s.

* `allShardsAvailable_iff_covers`: the peers in the states cover every
  segment with a valid configuration;
* `allShardsAvailable_congr_of_configs`: the answer reads the
  configurations of the peers in the states as a set.
-/

namespace ZgStorage

open ShardSegmentTreeNode in
/-- `all_shards_available` answers from the valid configurations that cover
each segment: the answer is `true` exactly when every segment is in the range
of a valid configuration of the list. -/
theorem allShardsAvailable_eq_true_iff_covers (cs : List ShardConfig) :
    allShardsAvailable cs = true ↔ ∀ seg, ∃ c ∈ cs, c.validate = .ok () ∧ c.inRange seg = true := by
  have hroot : Tracks ∅ (new 1) 0 := ⟨by decide, fun h => absurd h (by decide), fun _ => Set.disjoint_empty _⟩
  rw [allShardsAvailable, allShardsAvailableLoop_iff hroot rfl rfl]
  exact forall_congr' fun seg => or_iff_right (Set.notMem_empty seg)

/-- More configurations keep every segment covered. -/
theorem allShardsAvailable_mono {cs cs' : List ShardConfig} (h : ∀ c ∈ cs, c ∈ cs')
    (hall : allShardsAvailable cs = true) : allShardsAvailable cs' = true := by
  rw [allShardsAvailable_eq_true_iff_covers] at hall ⊢
  intro seg
  obtain ⟨c, hc, hv, hr⟩ := hall seg
  exact ⟨c, h c hc, hv, hr⟩

namespace Sync

/-- `PeerState`. -/
inductive PeerState where
  | found
  | connecting
  | connected
  | disconnecting
  | disconnected
  deriving DecidableEq, Repr

/-- `PeerInfo`, without the address, which only the dial reads: the state,
the shard configuration, and the time of the last state change. -/
structure PeerInfo where
  state : PeerState
  shardConfig : ShardConfig
  since : Nat
  deriving DecidableEq

/-- `PeerInfo::update_state`. -/
def PeerInfo.updateState (info : PeerInfo) (newState : PeerState) (now : Nat) : PeerInfo :=
  { info with state := newState, since := now }

/-- `Config` of the sync service: the fields the controllers read, the
durations in milliseconds. -/
structure Config where
  neighborsOnly : Bool
  maxRequestFailures : Nat
  peerConnectTimeout : Nat
  peerDisconnectTimeout : Nat
  peerFindTimeout : Nat
  peerChunksDownloadTimeout : Nat
  peerWaitOutgoingConnectionTimeout : Nat
  peerNextChunksRequestWaitTimeout : Nat
  maxBandwidthBytes : Nat
  bandwidthWaitTimeout : Nat

/-- `Config::default`. -/
def Config.default : Config :=
  ⟨true, 3, 15000, 15000, 5000, 15000, 10000, 3000, 0, 5000⟩

/-- The pubsub messages a controller publishes, for its own file:
`FindFile` with the node's shard configuration, `AskFile` (as a
`ShardedFile`) and `FindChunks`. -/
inductive PubsubMessage where
  | findFile (maybeShardConfig : Option ShardConfig)
  | askFile (shardConfig : ShardConfig)
  | findChunks (indexStart indexEnd : Nat)
  deriving DecidableEq

/-- `GetChunksRequest`, for the controller's file. -/
structure GetChunksRequest where
  indexStart : Nat
  indexEnd : Nat
  merkleTxSeq : Nat
  deriving DecidableEq

/-- What a controller asks of the network service (`SyncNetworkContext`),
the store and the file location cache, with the store's answers: every peer
it reports is reported with `PeerAction::LowToleranceError`. -/
inductive Effect (P : Type) where
  | reportPeer (peerId : P) (reason : String)
  | banPeer (peerId : P) (reason : String)
  | removeAnnouncement (peerId : P)
  | publish (msg : PubsubMessage)
  | dialPeer (peerId : P)
  | sendRequest (peerId : P) (request : GetChunksRequest)
  | announceLocalFile
  | validateRangeProof (indexStart indexEnd : Nat) (answer : Except Error Bool)
  | putChunks (indexStart indexEnd : Nat) (answer : Except Error Bool)
  | finalizeTx (answer : Except Error Bool)

/-- `IteratorRandom::choose` and `gen_range(0..len)`: the item of the draw
`r`, of any of the items. -/
def choose {α : Type} (items : List α) (r : Nat) : Option α := items[r % items.length]?

/-- `SyncPeers`, for a controller's own file and network context. -/
structure SyncPeers (P : Type) [DecidableEq P] where
  config : Config
  peers : AList (fun _ : P => PeerInfo)

namespace SyncPeers

variable {P : Type} [DecidableEq P]

/-- `SyncPeers::new`. -/
def new (config : Config) : SyncPeers P := ⟨config, ∅⟩

/-- `add_new_peer_with_config`: a peer already known with this configuration
stays as it is; otherwise it is entered as `Found`. -/
def addNewPeerWithConfig (s : SyncPeers P) (peerId : P) (shardConfig : ShardConfig) (now : Nat) :
    Bool × SyncPeers P :=
  if (s.peers.lookup peerId).any (·.shardConfig = shardConfig) then (false, s)
  else (true, { s with peers := s.peers.insert peerId ⟨.found, shardConfig, now⟩ })

/-- `update_state`: `none` for an unknown peer, and whether the peer was in
`fromState` and moved to `toState`. -/
def updateState (s : SyncPeers P) (peerId : P) (fromState toState : PeerState) (now : Nat) :
    Option Bool × SyncPeers P :=
  match s.peers.lookup peerId with
  | none => (none, s)
  | some info =>
    if info.state = fromState then (some true, { s with peers := s.peers.insert peerId (info.updateState toState now) })
    else (some false, s)

/-- `update_state_force`: the old state, with the time of the last change
left as it was. -/
def updateStateForce (s : SyncPeers P) (peerId : P) (state : PeerState) : Option PeerState × SyncPeers P :=
  match s.peers.lookup peerId with
  | none => (none, s)
  | some info => (some info.state, { s with peers := s.peers.insert peerId { info with state := state } })

/-- `peer_state`. -/
def peerState (s : SyncPeers P) (peerId : P) : Option PeerState := (s.peers.lookup peerId).map (·.state)

/-- `shard_config`. -/
def shardConfig (s : SyncPeers P) (peerId : P) : Option ShardConfig :=
  (s.peers.lookup peerId).map (·.shardConfig)

/-- `random_peer`: a peer in the state, by the draw `r`. -/
def randomPeer (s : SyncPeers P) (state : PeerState) (r : Nat) : Option P :=
  choose ((s.peers.entries.filter fun e => e.2.state = state).map (·.1)) r

/-- `filter_peers`. -/
def filterPeers (s : SyncPeers P) (states : List PeerState) : List P :=
  (s.peers.entries.filter fun e => e.2.state ∈ states).map (·.1)

/-- `all_shards_available` over the configurations of the peers in the
states (`peers.get(peer_id).unwrap()` is the entry `filter_peers` kept, the
keys being distinct). -/
def allShardsAvailable (s : SyncPeers P) (states : List PeerState) : Bool :=
  ZgStorage.allShardsAvailable ((s.peers.entries.filter fun e => e.2.state ∈ states).map (·.2.shardConfig))

/-- Whether `transition` drops a peer: `Disconnected`, or past its timeout
while connecting or disconnecting. -/
def isBad (s : SyncPeers P) (now : Nat) (info : PeerInfo) : Bool :=
  match info.state with
  | .found | .connected => false
  | .connecting => decide (s.config.peerConnectTimeout ≤ now - info.since)
  | .disconnecting => decide (s.config.peerDisconnectTimeout ≤ now - info.since)
  | .disconnected => true

/-- `transition`: the bad peers removed; a connection that timed out is
reported and its announcement removed from the file location cache. -/
def transition (s : SyncPeers P) (now : Nat) : SyncPeers P × List (Effect P) :=
  let badPeers := s.peers.entries.filter fun e => s.isBad now e.2
  ({ s with peers := badPeers.foldl (fun m e => m.erase e.1) s.peers },
    badPeers.flatMap fun e =>
      if e.2.state = .connecting then [.reportPeer e.1 "Dial timeout", .removeAnnouncement e.1] else [])

/-! ### Lookups after each call -/

theorem lookup_addNewPeerWithConfig (s : SyncPeers P) (peerId : P) (shardConfig : ShardConfig) (now : Nat) (k : P) :
    (s.addNewPeerWithConfig peerId shardConfig now).2.peers.lookup k =
      if k = peerId ∧ ¬ (s.peers.lookup peerId).any (·.shardConfig = shardConfig) then
        some ⟨.found, shardConfig, now⟩
      else s.peers.lookup k := by
  unfold addNewPeerWithConfig
  by_cases hany : (s.peers.lookup peerId).any (·.shardConfig = shardConfig) = true
  · simp [hany]
  · rw [if_neg hany]
    by_cases hk : k = peerId
    · subst hk
      simp [hany, AList.lookup_insert]
    · simp [hk, AList.lookup_insert_ne hk]

/-- `update_state` moves the peer when it is in `fromState`, and only then. -/
theorem updateState_spec (s : SyncPeers P) (peerId : P) (fromState toState : PeerState) (now : Nat) :
    (s.updateState peerId fromState toState now).1 = (s.peerState peerId).map (fun st => decide (st = fromState)) ∧
      ∀ k, (s.updateState peerId fromState toState now).2.peers.lookup k =
        match s.peers.lookup k with
        | some info => if k = peerId ∧ info.state = fromState then some (info.updateState toState now) else some info
        | none => none := by
  unfold updateState peerState
  cases hp : s.peers.lookup peerId with
  | none =>
    refine ⟨rfl, fun k => ?_⟩
    cases hk : s.peers.lookup k with
    | none => rfl
    | some info =>
      have : k ≠ peerId := by rintro rfl; rw [hp] at hk; cases hk
      simp [this]
  | some info =>
    dsimp only
    by_cases hs : info.state = fromState
    · rw [if_pos hs]
      refine ⟨by simp [hs], fun k => ?_⟩
      by_cases hk : k = peerId
      · subst hk
        simp [hp, hs, AList.lookup_insert]
      · rw [AList.lookup_insert_ne hk]
        cases s.peers.lookup k <;> simp [hk]
    · rw [if_neg hs]
      refine ⟨by simp [hs], fun k => ?_⟩
      cases hk : s.peers.lookup k with
      | none => rfl
      | some info' =>
        by_cases hkp : k = peerId
        · subst hkp
          rw [hp] at hk
          cases hk
          simp [hs]
        · simp [hkp]

theorem lookup_updateStateForce (s : SyncPeers P) (peerId : P) (state : PeerState) (k : P) :
    (s.updateStateForce peerId state).2.peers.lookup k =
      if k = peerId then (s.peers.lookup k).map ({ · with state := state }) else s.peers.lookup k := by
  unfold updateStateForce
  cases hp : s.peers.lookup peerId with
  | none =>
    by_cases hk : k = peerId
    · subst hk
      simp [hp]
    · simp [hk]
  | some info =>
    by_cases hk : k = peerId
    · subst hk
      simp [hp, AList.lookup_insert]
    · simp [hk, AList.lookup_insert_ne hk]

theorem fst_updateStateForce (s : SyncPeers P) (peerId : P) (state : PeerState) :
    (s.updateStateForce peerId state).1 = s.peerState peerId := by
  unfold updateStateForce peerState
  cases s.peers.lookup peerId <;> rfl

theorem lookup_foldl_erase (k : P) :
    ∀ (l : List (Σ _ : P, PeerInfo)) (m : AList (fun _ : P => PeerInfo)),
      (l.foldl (fun m e => m.erase e.1) m).lookup k = if k ∈ l.map (·.1) then none else m.lookup k
  | [], _ => rfl
  | e :: l, m => by
    rw [List.foldl_cons, lookup_foldl_erase k l, List.map_cons]
    by_cases hmem : k ∈ l.map (·.1)
    · rw [if_pos hmem, if_pos (List.mem_cons_of_mem _ hmem)]
    · rw [if_neg hmem]
      by_cases hk : k = e.1
      · rw [if_pos (by rw [hk]; exact List.mem_cons_self), hk, AList.lookup_erase]
      · rw [if_neg (by simp [hk, hmem]), AList.lookup_erase_ne hk]

theorem lookup_transition (s : SyncPeers P) (now : Nat) (k : P) :
    (s.transition now).1.peers.lookup k = (s.peers.lookup k).filter fun info => !s.isBad now info := by
  simp only [transition]
  rw [lookup_foldl_erase]
  cases hk : s.peers.lookup k with
  | none => simp
  | some info =>
    have hmem : k ∈ (s.peers.entries.filter fun e => s.isBad now e.2).map (·.1) ↔ s.isBad now info = true := by
      simp only [List.mem_map, List.mem_filter]
      constructor
      · rintro ⟨⟨k', info'⟩, ⟨he, hb⟩, rfl⟩
        rw [AList.mem_lookup_iff.mpr he] at hk
        cases hk
        exact hb
      · exact fun hb => ⟨⟨k, info⟩, ⟨AList.mem_lookup_iff.mp hk, hb⟩, rfl⟩
    by_cases hb : s.isBad now info = true
    · simp [hmem.mpr hb, Option.filter, hb]
    · simp [mt hmem.mp hb, Option.filter, hb]

/-! ### What the filters read -/

theorem mem_filterPeers {s : SyncPeers P} {states : List PeerState} {k : P} :
    k ∈ s.filterPeers states ↔ ∃ info, s.peers.lookup k = some info ∧ info.state ∈ states := by
  simp only [filterPeers, List.mem_map, List.mem_filter, decide_eq_true_eq]
  constructor
  · rintro ⟨⟨k', info⟩, ⟨he, hs⟩, rfl⟩
    exact ⟨info, AList.mem_lookup_iff.mpr he, hs⟩
  · rintro ⟨info, hl, hs⟩
    exact ⟨⟨k, info⟩, ⟨AList.mem_lookup_iff.mp hl, hs⟩, rfl⟩

/-- The configurations `all_shards_available` reads: those of the peers in
the states. -/
theorem mem_configs {s : SyncPeers P} {states : List PeerState} {c : ShardConfig} :
    c ∈ (s.peers.entries.filter fun e => e.2.state ∈ states).map (·.2.shardConfig) ↔
      ∃ k info, s.peers.lookup k = some info ∧ info.state ∈ states ∧ info.shardConfig = c := by
  simp only [List.mem_map, List.mem_filter, decide_eq_true_eq]
  constructor
  · rintro ⟨⟨k, info⟩, ⟨he, hs⟩, rfl⟩
    exact ⟨k, info, AList.mem_lookup_iff.mpr he, hs, rfl⟩
  · rintro ⟨k, info, hl, hs, rfl⟩
    exact ⟨⟨k, info⟩, ⟨AList.mem_lookup_iff.mp hl, hs⟩, rfl⟩

/-- The peers in the states cover every segment with a valid
configuration. -/
theorem allShardsAvailable_iff_covers (s : SyncPeers P) (states : List PeerState) :
    s.allShardsAvailable states = true ↔
      ∀ seg, ∃ k info, s.peers.lookup k = some info ∧ info.state ∈ states ∧
        info.shardConfig.validate = .ok () ∧ info.shardConfig.inRange seg = true := by
  rw [allShardsAvailable, allShardsAvailable_eq_true_iff_covers]
  refine forall_congr' fun seg => ⟨fun ⟨c, hc, hv, hr⟩ => ?_, fun ⟨k, info, hl, hs, hv, hr⟩ => ?_⟩
  · obtain ⟨k, info, hl, hs, rfl⟩ := mem_configs.mp hc
    exact ⟨k, info, hl, hs, hv, hr⟩
  · exact ⟨info.shardConfig, mem_configs.mpr ⟨k, info, hl, hs, rfl⟩, hv, hr⟩

/-- The answer reads the configurations of the peers in the states as a
set. -/
theorem allShardsAvailable_congr_of_configs {s s' : SyncPeers P} {states states' : List PeerState}
    (h : ∀ c, (∃ k info, s'.peers.lookup k = some info ∧ info.state ∈ states' ∧ info.shardConfig = c) →
      ∃ k info, s.peers.lookup k = some info ∧ info.state ∈ states ∧ info.shardConfig = c)
    (hall : s'.allShardsAvailable states' = true) : s.allShardsAvailable states = true :=
  allShardsAvailable_mono (fun c hc => mem_configs.mpr (h c (mem_configs.mp hc))) hall

end SyncPeers

end Sync

end ZgStorage

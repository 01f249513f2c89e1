import ZgStorage.Sync.Peers
import ZgStorage.Framework.WhileLoop
import ZgStorage.ChunkPool.WriteControl
import ZgStorage.LogStore.ChunkData

/-!
# The serial sync controller

`SerialSyncController` (`controllers/serial.rs`) syncs the chunks
`[index_start, index_end)` of one file from other peers, one request of at
most `PORA_CHUNK_SIZE` chunks at a time. Its `SyncState` moves from `Idle`
through finding peers that cover every shard, connecting to them and
downloading from a connected one, to `Completed` or `Failed`; `transition`
runs these moves in a `while` loop until the state waits for an event or a
timeout, and the `on_*` calls are the events: a peer found or announced, a
dial that failed, a peer connected or disconnected, the response to a
request or its failure. A response that validates is stored, and
`next_chunk` moves on to the next segment of the node's shard.

Every call reads the time once (`Env.now`) with what it asks of the node:
its shard configuration, the file location cache, the bandwidth meter and
the random numbers it draws. What the call asks of the network service, the
store and the cache is its list of `Effect`s, with the store's answers,
which a response carries (`Response`). The loop of `transition` is a
`WhileLoop.run`, `none` when it runs out of turns; a random draw takes the
number at the count of the effects so far, which a successful draw always
adds to. The two fields only logs read (`tx_seq`, `since`) and the
network context and the store are left out.
-/

namespace ZgStorage

/-- `segment_to_sector`. -/
def segmentToSector (segmentIndex : Nat) : Nat := segmentIndex * poraChunkSize

namespace Sync

/-- `FileSyncGoal`. -/
structure FileSyncGoal where
  numChunks : Nat
  indexStart : Nat
  indexEnd : Nat
  allChunks : Bool
  deriving DecidableEq

/-- `FileSyncGoal::new`, whose assertion panics on an empty range or one
past the file. -/
def FileSyncGoal.new (numChunks indexStart indexEnd : Nat) (allChunks : Bool) : Except Error FileSyncGoal :=
  if indexStart < indexEnd ∧ indexEnd ≤ numChunks then pure ⟨numChunks, indexStart, indexEnd, allChunks⟩
  else throw (.panic "invalid index_end")

/-- `FileSyncGoal::new_file`. -/
def FileSyncGoal.newFile (numChunks : Nat) : Except Error FileSyncGoal := FileSyncGoal.new numChunks 0 numChunks true

/-- `FailureReason`, a database error with the error itself. -/
inductive FailureReason where
  | dbError (err : Error)
  | txReverted (txId : ChunkPool.TxID)
  | timeoutFindFile
  deriving DecidableEq

/-- `SyncState`, without the times that nothing reads (the `origin` of
`FindingPeers` and `ConnectingPeers`, and the `since` of the latter). -/
inductive SyncState (P : Type) where
  | idle
  | findingPeers (since : Nat)
  | foundPeers
  | connectingPeers
  | awaitingOutgoingConnection (since : Nat)
  | awaitingDownload (since : Nat)
  | downloading (peerId : P) (fromChunk toChunk since : Nat)
  | completed
  | failed (reason : FailureReason)
  deriving DecidableEq

/-- `SerialSyncController`. -/
structure SerialSyncController (P : Type) [DecidableEq P] where
  config : Config
  txId : ChunkPool.TxID
  txStartChunkInFlow : Nat
  goal : FileSyncGoal
  nextChunk : Nat
  failures : Nat
  state : SyncState P
  peers : SyncPeers P

/-- What a call reads of the node: the time, the node's shard
configuration and `next_tx_seq` (from the store), the shard configurations
and the announcing peers of the file location cache (`get_peer_config`,
`get_all`), the rate of the segment bandwidth meter, and the random numbers. -/
structure Env (P : Type) where
  now : Nat
  shardConfig : ShardConfig
  nextTxSeq : Nat
  peerConfig : P → Option ShardConfig
  announcements : List P
  bandwidthRate : Nat
  rng : Nat → Nat

/-- A `ChunkArrayWithProof` as the controller reads it: where the chunks
start and how many bytes they hold, with the store's answers to
`validate_and_insert_range_proof`, `put_chunks_with_tx_hash` and
`finalize_tx_with_hash`. -/
structure Response where
  startIndex : Nat
  dataLen : Nat
  validation : Except Error Bool
  put : Except Error Bool
  finalize : Except Error Bool

/-- An effect on the store: a range proof to validate, chunks to store, a
file to finalize. -/
def Effect.toStore {P : Type} : Effect P → Bool
  | .validateRangeProof _ _ _ | .putChunks _ _ _ | .finalizeTx _ => true
  | _ => false

namespace SerialSyncController

variable {P : Type} [DecidableEq P]

/-- `SerialSyncController::new`. -/
def new (config : Config) (txId : ChunkPool.TxID) (txStartChunkInFlow : Nat) (goal : FileSyncGoal) :
    SerialSyncController P :=
  ⟨config, txId, txStartChunkInFlow, goal, goal.indexStart, 0, .idle, SyncPeers.new config⟩

/-- `is_completed_or_failed`. -/
def isCompletedOrFailed (c : SerialSyncController P) : Bool :=
  match c.state with
  | .completed | .failed _ => true
  | _ => false

/-- `reset`: a new range of chunks, the break point of a failed file sync,
or the whole file after a failed sync of chunks; the peers' `transition`
drops the disconnected ones. -/
def reset (c : SerialSyncController P) (maybeRange : Option (Nat × Nat)) (now : Nat) :
    Except Error (SerialSyncController P × List (Effect P)) := do
  let c ← match maybeRange with
    | some (start, stop) => do
      let goal ← FileSyncGoal.new c.goal.numChunks start stop false
      pure { c with goal := goal, nextChunk := start }
    | none =>
      if c.goal.allChunks then pure c
      else do
        let goal ← FileSyncGoal.newFile c.goal.numChunks
        pure { c with goal := goal, nextChunk := 0 }
  let r := c.peers.transition now
  pure ({ c with failures := 0, state := .idle, peers := r.1 }, r.2)

/-- `on_peer_found`: a peer whose shard configuration the file location
cache knows is added, or entered again when its configuration changed. -/
def onPeerFound (env : Env P) (c : SerialSyncController P) (peerId : P) : Bool × SerialSyncController P :=
  match env.peerConfig peerId with
  | some shardConfig =>
    let r := c.peers.addNewPeerWithConfig peerId shardConfig env.now
    (r.1, { c with peers := r.2 })
  | none => (false, c)

/-- `do_publish_find_file`. -/
def doPublishFindFile (env : Env P) (c : SerialSyncController P) : Effect P :=
  if c.config.neighborsOnly then .publish (.askFile env.shardConfig)
  else .publish (.findFile (some env.shardConfig))

/-- The loop of `publish_find_file` over the announcements of the file
location cache: the controller with the peers found, and how many are new. -/
def findCachedPeers (env : Env P) (c : SerialSyncController P) : List P → SerialSyncController P × Nat
  | [] => (c, 0)
  | peerId :: rest =>
    let r := c.onPeerFound env peerId
    let s := findCachedPeers env r.2 rest
    (s.1, s.2 + if r.1 then 1 else 0)

/-- `publish_find_file`: the peers of the cache first, and `FindFile` unless
some were new and the found, connecting and connected peers cover every
shard. -/
def publishFindFile (env : Env P) (c : SerialSyncController P) : SerialSyncController P × List (Effect P) :=
  let r := findCachedPeers env c env.announcements
  if r.2 > 0 ∧ r.1.peers.allShardsAvailable [.found, .connecting, .connected] then (r.1, [])
  else (r.1, [doPublishFindFile env r.1])

/-- `publish_find_chunks`. -/
def publishFindChunks (c : SerialSyncController P) : Effect P :=
  .publish (.findChunks c.goal.indexStart c.goal.indexEnd)

/-- `try_find_peers`. -/
def tryFindPeers (env : Env P) (c : SerialSyncController P) : SerialSyncController P × List (Effect P) :=
  let r : SerialSyncController P × List (Effect P) :=
    if !c.goal.allChunks then (c, [c.publishFindChunks])
    else if c.config.neighborsOnly then (c, [doPublishFindFile env c])
    else publishFindFile env c
  ({ r.1 with state := .findingPeers env.now }, r.2)

/-- The loop of `try_connect`, for at most `fuel` more turns, from the draw
`draw`: while the connecting and connected peers do not cover every shard, a
random `Found` peer is dialled and moved to `Connecting`. `true` when they
cover, `false` when no `Found` peer is left. -/
def tryConnectLoop (env : Env P) : Nat → Nat → SyncPeers P → Bool × SyncPeers P × List (Effect P)
  | 0, _, peers => (false, peers, [])
  | fuel + 1, draw, peers =>
    if peers.allShardsAvailable [.connecting, .connected] then (true, peers, [])
    else
      match peers.randomPeer .found (env.rng draw) with
      | none => (false, peers, [])
      | some peerId =>
        let r := tryConnectLoop env fuel (draw + 1) (peers.updateState peerId .found .connecting env.now).2
        (r.1, r.2.1, .dialPeer peerId :: r.2.2)

/-- `try_connect`, its loop given a turn more than there are peers. -/
def tryConnect (env : Env P) (c : SerialSyncController P) (draw : Nat) : SerialSyncController P × List (Effect P) :=
  let r := tryConnectLoop env (c.peers.peers.entries.length + 1) draw c.peers
  ({ c with peers := r.2.1, state := if r.1 then .connectingPeers else .idle }, r.2.2)

/-- `select_peer_for_request`: a random connected peer whose shard holds the
segment of the request's first chunk in the flow. -/
def selectPeerForRequest (c : SerialSyncController P) (request : GetChunksRequest) (r : Nat) : Option P :=
  let segmentIndex := sectorToSegment (request.indexStart + c.txStartChunkInFlow)
  let peers := (c.peers.filterPeers [.connected]).filter fun peerId =>
    match c.peers.shardConfig peerId with
    | some v => v.inRange segmentIndex
    | none => false
  if peers.length = 0 then none else choose peers r

/-- `try_request_next`: wait while the bandwidth is over its limit, and
otherwise request the next chunks from a selected peer. -/
def tryRequestNext (env : Env P) (c : SerialSyncController P) (draw : Nat) :
    SerialSyncController P × List (Effect P) :=
  if c.config.maxBandwidthBytes > 0 ∧ env.bandwidthRate > c.config.maxBandwidthBytes then
    ({ c with state := .awaitingDownload (env.now + c.config.bandwidthWaitTimeout) }, [])
  else
    let fromChunk := c.nextChunk
    let toChunk := min (fromChunk + poraChunkSize) c.goal.indexEnd
    let request : GetChunksRequest := ⟨fromChunk, toChunk, env.nextTxSeq - 1⟩
    match c.selectPeerForRequest request (env.rng draw) with
    | none => ({ c with state := .idle }, [])
    | some peerId => ({ c with state := .downloading peerId fromChunk toChunk env.now }, [.sendRequest peerId request])

/-- `ban_peer`. -/
def banPeer (env : Env P) (c : SerialSyncController P) (peerId : P) (reason : String) :
    SerialSyncController P × List (Effect P) :=
  ({ c with peers := (c.peers.updateState peerId .connected .disconnecting env.now).2 }, [.banPeer peerId reason])

/-- `on_peer_announced`: the peer, with its configuration, is connected. -/
def onPeerAnnounced (env : Env P) (c : SerialSyncController P) (peerId : P) (shardConfig : ShardConfig) :
    SerialSyncController P :=
  let peers := (c.peers.addNewPeerWithConfig peerId shardConfig env.now).2
  { c with peers := (peers.updateStateForce peerId .connected).2 }

/-- `on_dial_failed`, `connectionLimit` for `DialError::ConnectionLimit`: a
connecting peer goes back to `Found` to wait for an outgoing connection, or
is disconnected; either moves the state, whatever it was. -/
def onDialFailed (env : Env P) (c : SerialSyncController P) (peerId : P) (connectionLimit : Bool) :
    SerialSyncController P :=
  if connectionLimit then
    let r := c.peers.updateState peerId .connecting .found env.now
    if r.1 = some true then { c with peers := r.2, state := .awaitingOutgoingConnection env.now }
    else { c with peers := r.2 }
  else
    let r := c.peers.updateState peerId .connecting .disconnected env.now
    if r.1 = some true then { c with peers := r.2, state := .idle } else { c with peers := r.2 }

/-- `on_peer_connected`. -/
def onPeerConnected (env : Env P) (c : SerialSyncController P) (peerId : P) : SerialSyncController P :=
  { c with peers := (c.peers.updateState peerId .connecting .connected env.now).2 }

/-- `on_peer_disconnected`. -/
def onPeerDisconnected (c : SerialSyncController P) (peerId : P) : SerialSyncController P :=
  { c with peers := (c.peers.updateStateForce peerId .disconnected).2 }

/-- `handle_on_response_mismatch`: `true`, with the peer reported, unless
the controller is downloading from this peer. -/
def handleOnResponseMismatch (c : SerialSyncController P) (fromPeerId : P) : Bool × List (Effect P) :=
  match c.state with
  | .downloading peerId _ _ _ =>
    if fromPeerId = peerId then (false, []) else (true, [.reportPeer fromPeerId "Peer id mismatch"])
  | _ => (true, [.reportPeer fromPeerId "Sync state mismatch"])

/-- The response once it validated: stored, and on to the next segment of
the shard, to completion, or to the finalization of the file. -/
def storeResponse (env : Env P) (c : SerialSyncController P) (fromChunk : Nat) (response : Response)
    (validate : Effect P) : SerialSyncController P × List (Effect P) :=
  let c := { c with failures := 0 }
  let nextChunk := segmentToSector (env.shardConfig.nextSegmentIndex (sectorToSegment fromChunk)
    (sectorToSegment c.txStartChunkInFlow))
  let put : Effect P := .putChunks response.startIndex (response.startIndex + response.dataLen / chunkSize) response.put
  match response.put with
  | .ok true =>
    let c := { c with nextChunk := nextChunk }
    if c.nextChunk < c.goal.indexEnd then ({ c with state := .idle }, [validate, put])
    else if !c.goal.allChunks then ({ c with state := .completed }, [validate, put])
    else
      let finalize : Effect P := .finalizeTx response.finalize
      match response.finalize with
      | .ok true => ({ c with state := .completed }, [validate, put, finalize, .announceLocalFile])
      | .ok false => ({ c with state := .failed (.txReverted c.txId) }, [validate, put, finalize])
      | .error err => ({ c with state := .failed (.dbError err) }, [validate, put, finalize])
  | .ok false => ({ c with state := .failed (.txReverted c.txId) }, [validate, put])
  | .error err => ({ c with state := .failed (.dbError err) }, [validate, put])

/-- `on_response`, in a release build (the `debug_assert!` on the chunk
boundaries is not compiled in). -/
def onResponse (env : Env P) (c : SerialSyncController P) (fromPeerId : P) (response : Response) :
    SerialSyncController P × List (Effect P) :=
  let mismatch := c.handleOnResponseMismatch fromPeerId
  if mismatch.1 then (c, mismatch.2)
  else
    match c.state with
    | .downloading _ fromChunk toChunk _ =>
      if response.dataLen = 0 ∨ response.dataLen % chunkSize > 0 then
        let r := c.banPeer env fromPeerId "Invalid chunk response data length"
        ({ r.1 with state := .idle }, r.2)
      else if response.startIndex ≠ fromChunk ∨ response.startIndex + response.dataLen / chunkSize ≠ toChunk then
        (c, [.reportPeer fromPeerId "Got response with unexpected chunk range"])
      else
        let validate : Effect P := .validateRangeProof response.startIndex
          (response.startIndex + response.dataLen / chunkSize) response.validation
        match response.validation with
        | .ok true => c.storeResponse env fromChunk response validate
        | .ok false =>
          ({ c with state := .awaitingDownload (env.now + c.config.peerNextChunksRequestWaitTimeout) }, [validate])
        | .error _ =>
          let r := c.banPeer env fromPeerId "Chunk array validation failed"
          ({ r.1 with state := .idle }, validate :: r.2)
    | _ => (c, [])

/-- `handle_response_failure`: wait and retry, or ban the peer after too
many failures in a row. -/
def handleResponseFailure (env : Env P) (c : SerialSyncController P) (peerId : P) (reason : String) :
    SerialSyncController P × List (Effect P) :=
  let c := { c with failures := c.failures + 1 }
  if c.failures ≤ c.config.maxRequestFailures then
    ({ c with state := .awaitingDownload (env.now + c.config.peerNextChunksRequestWaitTimeout) }, [])
  else
    let r := c.banPeer env peerId reason
    ({ r.1 with state := .idle }, r.2)

/-- `on_request_failed`. -/
def onRequestFailed (env : Env P) (c : SerialSyncController P) (peerId : P) :
    SerialSyncController P × List (Effect P) :=
  let mismatch := c.handleOnResponseMismatch peerId
  if mismatch.1 then (c, mismatch.2) else c.handleResponseFailure env peerId "RPC Error"

/-- A turn of the loop of `transition`, on the controller and the effects
so far: the next controller and effects, and whether the loop is done. -/
def transitionStep (env : Env P) (s : SerialSyncController P × List (Effect P)) :
    (SerialSyncController P × List (Effect P)) × Bool :=
  let c := s.1
  match c.state with
  | .idle =>
    if c.peers.allShardsAvailable [.found, .connecting, .connected] then (({ c with state := .foundPeers }, s.2), false)
    else
      let r := c.tryFindPeers env
      ((r.1, s.2 ++ r.2), false)
  | .findingPeers since =>
    if c.peers.allShardsAvailable [.found, .connecting, .connected] then (({ c with state := .foundPeers }, s.2), false)
    else if c.config.peerFindTimeout ≤ env.now - since then
      if c.goal.allChunks ∧ c.config.neighborsOnly then (({ c with state := .failed .timeoutFindFile }, s.2), true)
      else
        let r := c.tryFindPeers env
        ((r.1, s.2 ++ r.2), true)
    else (s, true)
  | .foundPeers =>
    if c.peers.allShardsAvailable [.connecting, .connected] then (({ c with state := .connectingPeers }, s.2), false)
    else
      let r := c.tryConnect env s.2.length
      ((r.1, s.2 ++ r.2), false)
  | .connectingPeers =>
    if c.peers.allShardsAvailable [.connected] then (({ c with state := .awaitingDownload env.now }, s.2), false)
    else if !c.peers.allShardsAvailable [.connecting, .connected] then (({ c with state := .idle }, s.2), false)
    else (s, true)
  | .awaitingOutgoingConnection since =>
    if env.now - since < c.config.peerWaitOutgoingConnectionTimeout then (s, true)
    else (({ c with state := .idle }, s.2), false)
  | .awaitingDownload since =>
    if env.now < since then (s, true)
    else
      let r := c.tryRequestNext env s.2.length
      ((r.1, s.2 ++ r.2), false)
  | .downloading peerId _ _ since =>
    if c.peers.peerState peerId ≠ some .connected then (({ c with state := .idle }, s.2), false)
    else if c.config.peerChunksDownloadTimeout ≤ env.now - since then
      let r := c.handleResponseFailure env peerId "RPC timeout"
      ((r.1, s.2 ++ r.2), false)
    else (s, true)
  | .completed | .failed _ => (s, true)

/-- `transition`, its loop for at most `fuel` turns: `none` when they run
out. -/
def transition (env : Env P) (c : SerialSyncController P) (fuel : Nat) :
    Option (SerialSyncController P × List (Effect P)) :=
  let r := c.peers.transition env.now
  WhileLoop.run (transitionStep env) fuel ({ c with peers := r.1 }, r.2)

/-! ### A turn from each state -/

section Turns

variable {env : Env P} {s : SerialSyncController P × List (Effect P)}

theorem transitionStep_idle (h : s.1.state = .idle) :
    transitionStep env s =
      if s.1.peers.allShardsAvailable [.found, .connecting, .connected] then
        (({ s.1 with state := .foundPeers }, s.2), false)
      else (((s.1.tryFindPeers env).1, s.2 ++ (s.1.tryFindPeers env).2), false) := by
  unfold transitionStep
  dsimp only
  rw [h]

theorem transitionStep_findingPeers {since : Nat} (h : s.1.state = .findingPeers since) :
    transitionStep env s =
      if s.1.peers.allShardsAvailable [.found, .connecting, .connected] then
        (({ s.1 with state := .foundPeers }, s.2), false)
      else if s.1.config.peerFindTimeout ≤ env.now - since then
        if s.1.goal.allChunks ∧ s.1.config.neighborsOnly then (({ s.1 with state := .failed .timeoutFindFile }, s.2), true)
        else (((s.1.tryFindPeers env).1, s.2 ++ (s.1.tryFindPeers env).2), true)
      else (s, true) := by
  unfold transitionStep
  dsimp only
  rw [h]

theorem transitionStep_foundPeers (h : s.1.state = .foundPeers) :
    transitionStep env s =
      if s.1.peers.allShardsAvailable [.connecting, .connected] then
        (({ s.1 with state := .connectingPeers }, s.2), false)
      else (((s.1.tryConnect env s.2.length).1, s.2 ++ (s.1.tryConnect env s.2.length).2), false) := by
  unfold transitionStep
  dsimp only
  rw [h]

theorem transitionStep_connectingPeers (h : s.1.state = .connectingPeers) :
    transitionStep env s =
      if s.1.peers.allShardsAvailable [.connected] then (({ s.1 with state := .awaitingDownload env.now }, s.2), false)
      else if !s.1.peers.allShardsAvailable [.connecting, .connected] then (({ s.1 with state := .idle }, s.2), false)
      else (s, true) := by
  unfold transitionStep
  dsimp only
  rw [h]

theorem transitionStep_awaitingOutgoingConnection {since : Nat} (h : s.1.state = .awaitingOutgoingConnection since) :
    transitionStep env s =
      if env.now - since < s.1.config.peerWaitOutgoingConnectionTimeout then (s, true)
      else (({ s.1 with state := .idle }, s.2), false) := by
  unfold transitionStep
  dsimp only
  rw [h]

theorem transitionStep_awaitingDownload {since : Nat} (h : s.1.state = .awaitingDownload since) :
    transitionStep env s =
      if env.now < since then (s, true)
      else (((s.1.tryRequestNext env s.2.length).1, s.2 ++ (s.1.tryRequestNext env s.2.length).2), false) := by
  unfold transitionStep
  dsimp only
  rw [h]

theorem transitionStep_downloading {peerId : P} {fromChunk toChunk since : Nat}
    (h : s.1.state = .downloading peerId fromChunk toChunk since) :
    transitionStep env s =
      if s.1.peers.peerState peerId ≠ some .connected then (({ s.1 with state := .idle }, s.2), false)
      else if s.1.config.peerChunksDownloadTimeout ≤ env.now - since then
        (((s.1.handleResponseFailure env peerId "RPC timeout").1,
          s.2 ++ (s.1.handleResponseFailure env peerId "RPC timeout").2), false)
      else (s, true) := by
  unfold transitionStep
  dsimp only
  rw [h]

theorem transitionStep_of_isCompletedOrFailed (h : s.1.isCompletedOrFailed = true) : transitionStep env s = (s, true) := by
  unfold isCompletedOrFailed at h
  unfold transitionStep
  dsimp only
  split at h
  · rename_i hs
    rw [hs]
  · rename_i hs
    rw [hs]
  · nomatch h

end Turns

/-! ### What the turns of `transition` keep

A turn changes only the peers, the failures and the state: the goal and
`next_chunk` stay (`SameTask`). It never completes a sync, it requests only
the next chunks (`TurnState`), and none of its effects goes to the store
(`Effect.toStore`): it is a `QuietStep`, and so is the whole `transition`. -/

/-- The controller's task, what no turn of `transition` changes: its
configuration, its file, its goal and how far it got. -/
structure SameTask (c c' : SerialSyncController P) : Prop where
  config : c'.config = c.config
  txId : c'.txId = c.txId
  txStart : c'.txStartChunkInFlow = c.txStartChunkInFlow
  goal : c'.goal = c.goal
  nextChunk : c'.nextChunk = c.nextChunk

theorem SameTask.refl (c : SerialSyncController P) : SameTask c c := ⟨rfl, rfl, rfl, rfl, rfl⟩

theorem SameTask.trans {c c' c'' : SerialSyncController P} (h : SameTask c c') (h' : SameTask c' c'') :
    SameTask c c'' :=
  ⟨h'.config.trans h.config, h'.txId.trans h.txId, h'.txStart.trans h.txStart, h'.goal.trans h.goal,
    h'.nextChunk.trans h.nextChunk⟩

theorem sameTask_findCachedPeers (env : Env P) :
    ∀ (c : SerialSyncController P) (l : List P), SameTask c (findCachedPeers env c l).1
  | c, [] => SameTask.refl c
  | c, peerId :: rest => by
    refine SameTask.trans ?_ (sameTask_findCachedPeers env _ rest)
    unfold onPeerFound
    split
    · exact ⟨rfl, rfl, rfl, rfl, rfl⟩
    · exact ⟨rfl, rfl, rfl, rfl, rfl⟩

theorem sameTask_tryFindPeers (env : Env P) (c : SerialSyncController P) : SameTask c (c.tryFindPeers env).1 := by
  unfold tryFindPeers
  dsimp only
  split
  · exact ⟨rfl, rfl, rfl, rfl, rfl⟩
  · split
    · exact ⟨rfl, rfl, rfl, rfl, rfl⟩
    · unfold publishFindFile
      dsimp only
      split
      · exact (sameTask_findCachedPeers env c _).trans ⟨rfl, rfl, rfl, rfl, rfl⟩
      · exact (sameTask_findCachedPeers env c _).trans ⟨rfl, rfl, rfl, rfl, rfl⟩

theorem sameTask_tryRequestNext (env : Env P) (c : SerialSyncController P) (draw : Nat) :
    SameTask c (c.tryRequestNext env draw).1 := by
  unfold tryRequestNext
  dsimp only
  split
  · exact ⟨rfl, rfl, rfl, rfl, rfl⟩
  · split
    · exact ⟨rfl, rfl, rfl, rfl, rfl⟩
    · exact ⟨rfl, rfl, rfl, rfl, rfl⟩

theorem sameTask_handleResponseFailure (env : Env P) (c : SerialSyncController P) (peerId : P) (reason : String) :
    SameTask c (c.handleResponseFailure env peerId reason).1 := by
  unfold handleResponseFailure
  dsimp only
  split
  · exact ⟨rfl, rfl, rfl, rfl, rfl⟩
  · exact ⟨rfl, rfl, rfl, rfl, rfl⟩

/-- A state a turn of `transition` moves to: never `Completed`, and
`Downloading` only the chunks from `next_chunk` on, at most a segment and
within the goal, as `try_request_next` requests them. -/
def TurnState (c : SerialSyncController P) : SyncState P → Prop
  | .completed => False
  | .downloading _ fromChunk toChunk _ =>
    fromChunk = c.nextChunk ∧ toChunk = min (c.nextChunk + poraChunkSize) c.goal.indexEnd
  | _ => True

theorem turnState_tryRequestNext (env : Env P) (c : SerialSyncController P) (draw : Nat) :
    TurnState c (c.tryRequestNext env draw).1.state := by
  unfold tryRequestNext
  dsimp only
  split
  · trivial
  · split
    · trivial
    · exact ⟨rfl, rfl⟩

theorem turnState_handleResponseFailure (env : Env P) (c : SerialSyncController P) (peerId : P)
    (reason : String) : TurnState c (c.handleResponseFailure env peerId reason).1.state := by
  unfold handleResponseFailure
  dsimp only
  split
  · trivial
  · trivial

theorem turnState_tryConnect (env : Env P) (c : SerialSyncController P) (draw : Nat) :
    TurnState c (c.tryConnect env draw).1.state := by
  unfold tryConnect
  dsimp only
  split
  · trivial
  · trivial

theorem toStore_doPublishFindFile (env : Env P) (c : SerialSyncController P) :
    (doPublishFindFile env c).toStore = false := by
  unfold doPublishFindFile
  split <;> rfl

theorem toStore_tryFindPeers (env : Env P) (c : SerialSyncController P) :
    ∀ e ∈ (c.tryFindPeers env).2, e.toStore = false := by
  unfold tryFindPeers
  dsimp only
  split
  · simp [publishFindChunks, Effect.toStore]
  · split
    · simp [toStore_doPublishFindFile]
    · unfold publishFindFile
      dsimp only
      split
      · simp
      · simp [toStore_doPublishFindFile]

theorem toStore_tryConnectLoop (env : Env P) :
    ∀ (fuel draw : Nat) (peers : SyncPeers P), ∀ e ∈ (tryConnectLoop env fuel draw peers).2.2, e.toStore = false
  | 0, _, _ => by simp [tryConnectLoop]
  | fuel + 1, draw, peers => by
    rw [tryConnectLoop]
    split
    · simp
    · split
      · simp
      · intro e he
        rcases List.mem_cons.mp he with rfl | he
        · rfl
        · exact toStore_tryConnectLoop env fuel _ _ e he

theorem toStore_tryRequestNext (env : Env P) (c : SerialSyncController P) (draw : Nat) :
    ∀ e ∈ (c.tryRequestNext env draw).2, e.toStore = false := by
  unfold tryRequestNext
  dsimp only
  split
  · simp
  · split
    · simp
    · simp [Effect.toStore]

theorem toStore_handleResponseFailure (env : Env P) (c : SerialSyncController P) (peerId : P)
    (reason : String) : ∀ e ∈ (c.handleResponseFailure env peerId reason).2, e.toStore = false := by
  unfold handleResponseFailure
  dsimp only
  split
  · simp
  · simp [banPeer, Effect.toStore]

theorem toStore_peers_transition (s : SyncPeers P) (now : Nat) :
    ∀ e ∈ (s.transition now).2, e.toStore = false := by
  intro e he
  obtain ⟨b, -, hb⟩ := List.mem_flatMap.mp he
  split at hb
  · rcases List.mem_pair.mp hb with rfl | rfl <;> rfl
  · nomatch hb

theorem TurnState.of_sameTask {c c' : SerialSyncController P} (h : SameTask c c') {st : SyncState P}
    (hs : TurnState c' st) : TurnState c st := by
  cases st
  case downloading => simpa only [TurnState, h.nextChunk, h.goal] using hs
  all_goals exact hs

theorem TurnState.ne_completed {c : SerialSyncController P} {st : SyncState P} (h : TurnState c st) :
    st ≠ .completed := by
  rintro rfl
  exact h

/-- A call that keeps the task, moves the state, if at all, to a
`TurnState`, and asks nothing of the store: every turn of `transition`. -/
structure QuietStep (c c' : SerialSyncController P) (new : List (Effect P)) : Prop where
  sameTask : SameTask c c'
  state : c'.state = c.state ∨ TurnState c c'.state
  noStore : ∀ e ∈ new, e.toStore = false

theorem QuietStep.refl (c : SerialSyncController P) : QuietStep c c [] :=
  ⟨SameTask.refl c, .inl rfl, fun _ h => nomatch h⟩

theorem QuietStep.of_turnState {c : SerialSyncController P} {st : SyncState P} (h : TurnState c st) :
    QuietStep c { c with state := st } [] :=
  ⟨⟨rfl, rfl, rfl, rfl, rfl⟩, .inr h, fun _ h => nomatch h⟩

theorem QuietStep.trans {c c' c'' : SerialSyncController P} {new new' : List (Effect P)}
    (h : QuietStep c c' new) (h' : QuietStep c' c'' new') : QuietStep c c'' (new ++ new') := by
  refine ⟨h.sameTask.trans h'.sameTask, ?_, ?_⟩
  · rcases h'.state with h₂ | h₂
    · rw [h₂]
      exact h.state
    · exact .inr (h₂.of_sameTask h.sameTask)
  · intro e he
    rcases List.mem_append.mp he with he | he
    · exact h.noStore e he
    · exact h'.noStore e he

theorem quietStep_tryFindPeers (env : Env P) (c : SerialSyncController P) :
    QuietStep c (c.tryFindPeers env).1 (c.tryFindPeers env).2 :=
  ⟨sameTask_tryFindPeers env c, .inr trivial, toStore_tryFindPeers env c⟩

theorem quietStep_tryConnect (env : Env P) (c : SerialSyncController P) (draw : Nat) :
    QuietStep c (c.tryConnect env draw).1 (c.tryConnect env draw).2 :=
  ⟨⟨rfl, rfl, rfl, rfl, rfl⟩, .inr (turnState_tryConnect env c draw), toStore_tryConnectLoop env _ _ _⟩

theorem quietStep_tryRequestNext (env : Env P) (c : SerialSyncController P) (draw : Nat) :
    QuietStep c (c.tryRequestNext env draw).1 (c.tryRequestNext env draw).2 :=
  ⟨sameTask_tryRequestNext env c draw, .inr (turnState_tryRequestNext env c draw),
    toStore_tryRequestNext env c draw⟩

theorem quietStep_handleResponseFailure (env : Env P) (c : SerialSyncController P) (peerId : P)
    (reason : String) :
    QuietStep c (c.handleResponseFailure env peerId reason).1 (c.handleResponseFailure env peerId reason).2 :=
  ⟨sameTask_handleResponseFailure env c peerId reason, .inr (turnState_handleResponseFailure env c peerId reason),
    toStore_handleResponseFailure env c peerId reason⟩

/-- What a turn of `transition` can do, once for every state: it adds
effects to those so far, and is a `QuietStep`. -/
theorem quietStep_transitionStep (env : Env P) (s : SerialSyncController P × List (Effect P)) :
    ∃ new, (transitionStep env s).1.2 = s.2 ++ new ∧ QuietStep s.1 (transitionStep env s).1.1 new := by
  -- the three shapes of a branch: nothing changes, the state is set, a helper is called
  have hkeep : ∃ new, s.2 = s.2 ++ new ∧ QuietStep s.1 s.1 new :=
    ⟨[], (List.append_nil _).symm, .refl s.1⟩
  have hset : ∀ st, TurnState s.1 st → ∃ new, s.2 = s.2 ++ new ∧ QuietStep s.1 { s.1 with state := st } new :=
    fun _ h => ⟨[], (List.append_nil _).symm, .of_turnState h⟩
  have hcall : ∀ r : SerialSyncController P × List (Effect P), QuietStep s.1 r.1 r.2 →
      ∃ new, s.2 ++ r.2 = s.2 ++ new ∧ QuietStep s.1 r.1 new := fun r h => ⟨r.2, rfl, h⟩
  unfold transitionStep
  dsimp only
  split
  · split
    · exact hset _ trivial
    · exact hcall _ (quietStep_tryFindPeers env s.1)
  · split
    · exact hset _ trivial
    · split
      · split
        · exact hset _ trivial
        · exact hcall _ (quietStep_tryFindPeers env s.1)
      · exact hkeep
  · split
    · exact hset _ trivial
    · exact hcall _ (quietStep_tryConnect env s.1 _)
  · split
    · exact hset _ trivial
    · split
      · exact hset _ trivial
      · exact hkeep
  · split
    · exact hkeep
    · exact hset _ trivial
  · split
    · exact hkeep
    · exact hcall _ (quietStep_tryRequestNext env s.1 _)
  · split
    · exact hset _ trivial
    · split
      · exact hcall _ (quietStep_handleResponseFailure env s.1 _ _)
      · exact hkeep
  · exact hkeep
  · exact hkeep

/-- `transition` is a `QuietStep`: the peers' `transition`, then every turn
of the loop. -/
theorem quietStep_transition {env : Env P} {c c' : SerialSyncController P} {fuel : Nat}
    {effs : List (Effect P)} (h : c.transition env fuel = some (c', effs)) : QuietStep c c' effs := by
  have h₀ : QuietStep c { c with peers := (c.peers.transition env.now).1 } (c.peers.transition env.now).2 :=
    ⟨⟨rfl, rfl, rfl, rfl, rfl⟩, .inl rfl, toStore_peers_transition c.peers env.now⟩
  -- every turn appends to the effects and keeps the quiet step from `c`
  refine WhileLoop.run_inv (fun s => QuietStep c s.1 s.2) (fun s hs => ?_) h h₀
  obtain ⟨new, hnew, hq⟩ := quietStep_transitionStep env s
  rw [hnew]
  exact hs.trans hq

end SerialSyncController

/-- A call to the controller, as the sync service makes them; `transition`
with the turns its loop may take. -/
inductive Event (P : Type) where
  | reset (maybeRange : Option (Nat × Nat))
  | transition (fuel : Nat)
  | onPeerFound (peerId : P)
  | onPeerAnnounced (peerId : P) (shardConfig : ShardConfig)
  | onDialFailed (peerId : P) (connectionLimit : Bool)
  | onPeerConnected (peerId : P)
  | onPeerDisconnected (peerId : P)
  | onResponse (fromPeerId : P) (response : Response)
  | onRequestFailed (peerId : P)

namespace Event

variable {P : Type} [DecidableEq P]

/-- A call: the controller after it and its effects, `none` when it panics
or does not return. -/
def run (env : Env P) (c : SerialSyncController P) : Event P → Option (SerialSyncController P × List (Effect P))
  | reset maybeRange => (c.reset maybeRange env.now).toOption
  | transition fuel => c.transition env fuel
  | onPeerFound peerId => some ((c.onPeerFound env peerId).2, [])
  | onPeerAnnounced peerId shardConfig => some (c.onPeerAnnounced env peerId shardConfig, [])
  | onDialFailed peerId connectionLimit => some (c.onDialFailed env peerId connectionLimit, [])
  | onPeerConnected peerId => some (c.onPeerConnected env peerId, [])
  | onPeerDisconnected peerId => some (c.onPeerDisconnected peerId, [])
  | onResponse fromPeerId response => some (c.onResponse env fromPeerId response)
  | onRequestFailed peerId => some (c.onRequestFailed env peerId)

end Event

/-- A run of calls, each with what it reads of the node: the controller
after them and all their effects, `none` when one of them does not return. -/
def runEvents {P : Type} [DecidableEq P] (c : SerialSyncController P) :
    List (Env P × Event P) → Option (SerialSyncController P × List (Effect P))
  | [] => some (c, [])
  | (env, ev) :: rest => do
    let r ← ev.run env c
    let s ← runEvents r.1 rest
    pure (s.1, r.2 ++ s.2)

end Sync

end ZgStorage

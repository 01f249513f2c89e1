import ZgStorage.Sync.Serial

/-!
# The loop of `transition` stops

`transition` turns its `while` loop until a turn says it is done
(`WhileLoop.run`). Every turn that does not end the loop goes down in the
lexicographic order `Decreases` of five counts (`measure`):

1. the announcements of the file location cache whose configuration the
   peers do not hold yet (`SyncPeers.pending`): `publish_find_file` enters
   them, and no turn adds one back;
2. the peers found, connecting or connected: `try_connect` moves peers
   among these states, and a ban takes one out;
3. the peers found: `try_connect` dials one at least when the found,
   connecting and connected peers cover every shard and the connecting and
   connected ones do not;
4. the failures left before a ban: a timed-out download is retried;
5. the `rank` of the state, where it goes when nothing above moves, a
   state whose guard does not hold (`FoundPeers` whose peers do not cover
   every shard, ...) ranked above `Idle`.

So the loop stops from every state (`transition_returns`) when a bandwidth
over its limit comes with a wait, at a state that waits for an event or for
a time (`Rests`): never `Idle` or `FoundPeers`, and `AwaitingDownload` only
for a time to come.
-/

namespace ZgStorage

namespace Sync

theorem isSome_choose {α : Type} {items : List α} (h : items ≠ []) (r : Nat) : (choose items r).isSome := by
  rw [Option.isSome_iff_ne_none, choose, Ne, List.getElem?_eq_none_iff, Nat.not_le]
  exact Nat.mod_lt _ (List.length_pos_of_ne_nil h)

theorem mem_of_choose {α : Type} {items : List α} {r : Nat} {a : α} (h : choose items r = some a) : a ∈ items :=
  List.mem_of_getElem? h

namespace SyncPeers

variable {P : Type} [DecidableEq P]

/-! ### Counting the peers -/

/-- The number of peers in the states. -/
def countIn (s : SyncPeers P) (states : List PeerState) : Nat :=
  (s.peers.keysWhere fun info => decide (info.state ∈ states)).card

/-- The announced peers whose configuration in the file location cache the
peers do not hold: those `publish_find_file` enters. -/
def pending (s : SyncPeers P) (announcements : List P) (peerConfig : P → Option ShardConfig) : Finset P :=
  announcements.toFinset.filter fun k =>
    (peerConfig k).any fun cfg => !(s.peers.lookup k).any (·.shardConfig = cfg)

variable {s s' : SyncPeers P} {announcements : List P} {peerConfig : P → Option ShardConfig}

theorem pending_congr (h : ∀ k, (s'.peers.lookup k).map (·.shardConfig) = (s.peers.lookup k).map (·.shardConfig)) :
    s'.pending announcements peerConfig = s.pending announcements peerConfig := by
  refine Finset.filter_congr fun k _ => ?_
  have hk := congrArg (fun o => (peerConfig k).any fun cfg => !o.any (· = cfg)) (h k)
  simp only [Option.any_map] at hk
  rw [hk]

theorem lookup_updateState_map_shardConfig (peerId : P) (fromState toState : PeerState) (now : Nat) (k : P) :
    ((s.updateState peerId fromState toState now).2.peers.lookup k).map (·.shardConfig) =
      (s.peers.lookup k).map (·.shardConfig) := by
  rw [(updateState_spec s peerId fromState toState now).2 k]
  cases s.peers.lookup k with
  | none => rfl
  | some info =>
    dsimp only
    split <;> rfl

/-- `update_state` moves a peer between states: the counts of peers in
states that hold both, or neither, stay. -/
theorem countIn_updateState_eq {peerId : P} {fromState toState : PeerState} (now : Nat) {states : List PeerState}
    (hiff : toState ∈ states ↔ fromState ∈ states) :
    (s.updateState peerId fromState toState now).2.countIn states = s.countIn states := by
  refine AList.card_keysWhere_congr fun k => ?_
  rw [(updateState_spec s peerId fromState toState now).2 k]
  cases s.peers.lookup k with
  | none => rfl
  | some info =>
    dsimp only
    split
    · rename_i h
      simp only [Option.any_some, PeerInfo.updateState, h.2, hiff]
    · rfl

/-- No peer enters states that hold the state it is moved to only with the
one it is moved from. -/
theorem any_of_updateState {peerId : P} {fromState toState : PeerState} (now : Nat) {states : List PeerState}
    (hto : toState ∈ states → fromState ∈ states) (k : P)
    (hk : ((s.updateState peerId fromState toState now).2.peers.lookup k).any (fun info => decide (info.state ∈ states))) :
    (s.peers.lookup k).any (fun info => decide (info.state ∈ states)) := by
  rw [(updateState_spec s peerId fromState toState now).2 k] at hk
  cases hl : s.peers.lookup k with
  | none => rw [hl] at hk; nomatch hk
  | some info =>
    rw [hl] at hk
    dsimp only at hk
    split at hk
    · rename_i h
      simp only [Option.any_some, PeerInfo.updateState, decide_eq_true_eq] at hk
      simpa only [Option.any_some, h.2, decide_eq_true_eq] using hto hk
    · exact hk

theorem countIn_updateState_le {peerId : P} {fromState toState : PeerState} (now : Nat) {states : List PeerState}
    (hto : toState ∈ states → fromState ∈ states) :
    (s.updateState peerId fromState toState now).2.countIn states ≤ s.countIn states :=
  AList.card_keysWhere_le (any_of_updateState now hto)

/-- A peer moved out of the states is one less in them. -/
theorem countIn_updateState_lt {peerId : P} {fromState toState : PeerState} (now : Nat) {states : List PeerState}
    (hp : s.peerState peerId = some fromState) (hfrom : fromState ∈ states) (hto : toState ∉ states) :
    (s.updateState peerId fromState toState now).2.countIn states < s.countIn states := by
  obtain ⟨info, hl, hs⟩ := Option.map_eq_some_iff.mp hp
  refine AList.card_keysWhere_lt (any_of_updateState now fun h => absurd h hto) peerId ?_ ?_
  · rw [(updateState_spec s peerId fromState toState now).2 peerId, hl]
    simp [hs, PeerInfo.updateState, hto]
  · simp [hl, hs, hfrom]

theorem countIn_congr (h : ∀ k, s'.peers.lookup k = s.peers.lookup k) (states : List PeerState) :
    s'.countIn states = s.countIn states :=
  AList.card_keysWhere_congr fun k => by rw [h k]

theorem pending_updateState (peerId : P) (fromState toState : PeerState) (now : Nat) :
    (s.updateState peerId fromState toState now).2.pending announcements peerConfig = s.pending announcements peerConfig :=
  pending_congr (lookup_updateState_map_shardConfig peerId fromState toState now)

/-- The peers a random draw in a state gives are in it. -/
theorem peerState_of_randomPeer {state : PeerState} {r : Nat} {peerId : P} (h : s.randomPeer state r = some peerId) :
    s.peerState peerId = some state := by
  obtain ⟨⟨k, info⟩, he, rfl⟩ := List.mem_map.mp (mem_of_choose h)
  obtain ⟨he, hs⟩ := List.mem_filter.mp he
  rw [peerState, AList.mem_lookup_iff.mpr he]
  simpa using hs

/-- No draw in a state: no peer is in it. -/
theorem state_ne_of_randomPeer_eq_none {state : PeerState} {r : Nat} (h : s.randomPeer state r = none) {k : P}
    {info : PeerInfo} (hk : s.peers.lookup k = some info) : info.state ≠ state := by
  intro hs
  have hmem : k ∈ (s.peers.entries.filter fun e => e.2.state = state).map (·.1) :=
    List.mem_map.mpr ⟨⟨k, info⟩, List.mem_filter.mpr ⟨AList.mem_lookup_iff.mp hk, by simpa using hs⟩, rfl⟩
  have := isSome_choose (List.ne_nil_of_mem hmem) r
  rw [randomPeer] at h
  rw [h] at this
  nomatch this

/-! ### Entering the announced peers -/

/-- What `publish_find_file` does to the peers: each entry stays, or an
announced peer whose configuration was not held is entered as `Found`
with it. -/
def Enters (announcements : List P) (peerConfig : P → Option ShardConfig) (now : Nat) (s s' : SyncPeers P) : Prop :=
  ∀ k, s'.peers.lookup k = s.peers.lookup k ∨
    k ∈ s.pending announcements peerConfig ∧ ∃ cfg, peerConfig k = some cfg ∧ s'.peers.lookup k = some ⟨.found, cfg, now⟩

theorem Enters.refl (s : SyncPeers P) (now : Nat) : Enters announcements peerConfig now s s :=
  fun _ => .inl rfl

/-- An entered peer holds the configuration of the cache: it is no longer
pending. -/
theorem Enters.pending_subset {now : Nat} (h : Enters announcements peerConfig now s s') :
    s'.pending announcements peerConfig ⊆ s.pending announcements peerConfig := by
  intro k hk
  rcases h k with heq | ⟨-, cfg, hcfg, hnew⟩
  · simpa only [pending, Finset.mem_filter, heq] using hk
  · simp [pending, hcfg, hnew] at hk

theorem Enters.trans {s'' : SyncPeers P} {now : Nat} (h : Enters announcements peerConfig now s s')
    (h' : Enters announcements peerConfig now s' s'') : Enters announcements peerConfig now s s'' := by
  intro k
  rcases h' k with heq | ⟨hk, hnew⟩
  · rw [heq]
    exact h k
  · exact .inr ⟨h.pending_subset hk, hnew⟩

/-- Entering peers takes one pending announcement at least, or changes no
entry. -/
theorem Enters.card_pending {now : Nat} (h : Enters announcements peerConfig now s s') :
    (s'.pending announcements peerConfig).card < (s.pending announcements peerConfig).card ∨
      ∀ k, s'.peers.lookup k = s.peers.lookup k := by
  by_cases hall : ∀ k, s'.peers.lookup k = s.peers.lookup k
  · exact .inr hall
  · obtain ⟨k, hk⟩ := not_forall.mp hall
    obtain ⟨hpend, cfg, hcfg, hnew⟩ := (h k).resolve_left hk
    refine .inl (Finset.card_lt_card ((Finset.ssubset_iff_of_subset h.pending_subset).mpr ⟨k, hpend, ?_⟩))
    simp [pending, hcfg, hnew]

theorem enters_addNewPeerWithConfig {peerId : P} {shardConfig : ShardConfig} (now : Nat)
    (hmem : peerId ∈ announcements) (hcfg : peerConfig peerId = some shardConfig) :
    Enters announcements peerConfig now s (s.addNewPeerWithConfig peerId shardConfig now).2 := by
  intro k
  rw [lookup_addNewPeerWithConfig]
  split
  · rename_i h
    obtain ⟨rfl, hnot⟩ := h
    refine .inr ⟨?_, shardConfig, hcfg, rfl⟩
    simp only [pending, Finset.mem_filter, List.mem_toFinset, hcfg, Option.any_some]
    exact ⟨hmem, by simpa using hnot⟩
  · exact .inl rfl

/-! ### Dialling found peers -/

/-- What dialling a found peer keeps: the configurations and the count of
peers found, connecting or connected; no more peers are found. -/
structure Dials (s s' : SyncPeers P) : Prop where
  configs : ∀ k, (s'.peers.lookup k).map (·.shardConfig) = (s.peers.lookup k).map (·.shardConfig)
  active : s'.countIn [.found, .connecting, .connected] = s.countIn [.found, .connecting, .connected]
  found : s'.countIn [.found] ≤ s.countIn [.found]

theorem Dials.refl (s : SyncPeers P) : Dials s s := ⟨fun _ => rfl, rfl, le_refl _⟩

theorem Dials.trans {s'' : SyncPeers P} (h : Dials s s') (h' : Dials s' s'') : Dials s s'' :=
  ⟨fun k => (h'.configs k).trans (h.configs k), h'.active.trans h.active, h'.found.trans h.found⟩

theorem dials_updateState (peerId : P) (now : Nat) : Dials s (s.updateState peerId .found .connecting now).2 :=
  ⟨lookup_updateState_map_shardConfig peerId .found .connecting now, countIn_updateState_eq now (by simp),
    countIn_updateState_le now (by simp)⟩

end SyncPeers

namespace SerialSyncController

variable {P : Type} [DecidableEq P]

open SyncPeers

/-! ### What the helpers of a turn do to the counts -/

theorem findCachedPeers_fields (env : Env P) :
    ∀ (c : SerialSyncController P) (l : List P),
      (findCachedPeers env c l).1 = { c with peers := (findCachedPeers env c l).1.peers }
  | c, [] => rfl
  | c, peerId :: rest => by
    show (findCachedPeers env (c.onPeerFound env peerId).2 rest).1 =
      { c with peers := (findCachedPeers env (c.onPeerFound env peerId).2 rest).1.peers }
    rw [findCachedPeers_fields env _ rest]
    unfold onPeerFound
    split <;> rfl

theorem enters_findCachedPeers (env : Env P) :
    ∀ (c : SerialSyncController P) (l : List P), (∀ p ∈ l, p ∈ env.announcements) →
      Enters env.announcements env.peerConfig env.now c.peers (findCachedPeers env c l).1.peers
  | c, [], _ => Enters.refl c.peers env.now
  | c, peerId :: rest, hl => by
    have hfirst : Enters env.announcements env.peerConfig env.now c.peers (c.onPeerFound env peerId).2.peers := by
      unfold onPeerFound
      split
      · rename_i shardConfig hcfg
        exact enters_addNewPeerWithConfig env.now (hl peerId List.mem_cons_self) hcfg
      · exact Enters.refl c.peers env.now
    exact hfirst.trans (enters_findCachedPeers env _ rest fun p hp => hl p (List.mem_cons_of_mem _ hp))

/-- `try_find_peers` enters announced peers and moves to `FindingPeers`;
nothing else changes. -/
theorem tryFindPeers_spec (env : Env P) (c : SerialSyncController P) :
    Enters env.announcements env.peerConfig env.now c.peers (c.tryFindPeers env).1.peers ∧
      (c.tryFindPeers env).1.config = c.config ∧ (c.tryFindPeers env).1.failures = c.failures ∧
      (c.tryFindPeers env).1.state = .findingPeers env.now := by
  unfold tryFindPeers
  dsimp only
  split
  · exact ⟨Enters.refl c.peers env.now, rfl, rfl, rfl⟩
  · split
    · exact ⟨Enters.refl c.peers env.now, rfl, rfl, rfl⟩
    · have hfields := findCachedPeers_fields env c env.announcements
      have henters := enters_findCachedPeers env c env.announcements fun _ h => h
      unfold publishFindFile
      dsimp only
      split
      · exact ⟨henters, congrArg (·.config) hfields, congrArg (·.failures) hfields, rfl⟩
      · exact ⟨henters, congrArg (·.config) hfields, congrArg (·.failures) hfields, rfl⟩

theorem dials_tryConnectLoop (env : Env P) :
    ∀ (fuel draw : Nat) (peers : SyncPeers P), Dials peers (tryConnectLoop env fuel draw peers).2.1
  | 0, _, peers => Dials.refl peers
  | fuel + 1, draw, peers => by
    rw [tryConnectLoop]
    split
    · exact Dials.refl peers
    · split
      · exact Dials.refl peers
      · exact (dials_updateState _ env.now).trans (dials_tryConnectLoop env fuel (draw + 1) _)

/-- A turn of the loop of `try_connect` while the connecting and connected
peers do not cover every shard: no peer is found, or one is dialled. -/
theorem tryConnectLoop_succ_cases (env : Env P) (fuel draw : Nat) {peers : SyncPeers P}
    (h : peers.allShardsAvailable [.connecting, .connected] = false) :
    (peers.randomPeer .found (env.rng draw) = none ∧ tryConnectLoop env (fuel + 1) draw peers = (false, peers, [])) ∨
      (tryConnectLoop env (fuel + 1) draw peers).2.1.countIn [.found] < peers.countIn [.found] := by
  rw [tryConnectLoop, if_neg (by simp [h])]
  cases hr : peers.randomPeer .found (env.rng draw) with
  | none => exact .inl ⟨rfl, rfl⟩
  | some peerId =>
    refine .inr ((dials_tryConnectLoop env fuel (draw + 1) _).found.trans_lt ?_)
    exact countIn_updateState_lt env.now (peerState_of_randomPeer hr) (by simp) (by simp)

/-- `try_connect` while the connecting and connected peers do not cover
every shard: no peer is found and the state goes `Idle`, or fewer peers
are found. -/
theorem tryConnect_cases (env : Env P) (c : SerialSyncController P) (draw : Nat)
    (h : c.peers.allShardsAvailable [.connecting, .connected] = false) :
    ((∀ k info, c.peers.peers.lookup k = some info → info.state ≠ .found) ∧
        c.tryConnect env draw = ({ c with state := .idle }, [])) ∨
      Dials c.peers (c.tryConnect env draw).1.peers ∧
        (c.tryConnect env draw).1.peers.countIn [.found] < c.peers.countIn [.found] := by
  unfold tryConnect
  rcases tryConnectLoop_succ_cases env c.peers.peers.entries.length draw h with ⟨hnone, heq⟩ | hlt
  · rw [heq]
    exact .inl ⟨fun _ _ hk => state_ne_of_randomPeer_eq_none hnone hk, rfl⟩
  · exact .inr ⟨dials_tryConnectLoop env _ draw c.peers, hlt⟩

/-- With no peer found, the found, connecting and connected peers cover what
the connecting and connected ones cover. -/
theorem allShardsAvailable_of_no_found {peers : SyncPeers P}
    (h : ∀ k info, peers.peers.lookup k = some info → info.state ≠ .found)
    (hall : peers.allShardsAvailable [.found, .connecting, .connected] = true) :
    peers.allShardsAvailable [.connecting, .connected] = true := by
  refine allShardsAvailable_congr_of_configs (fun cfg ⟨k, info, hl, hs, hc⟩ => ⟨k, info, hl, ?_, hc⟩) hall
  have := h k info hl
  simp only [List.mem_cons, List.not_mem_nil, or_false] at hs ⊢
  rcases hs with hs | hs | hs
  · exact absurd hs this
  · exact .inl hs
  · exact .inr hs

theorem isSome_selectPeerForRequest (c : SerialSyncController P) (request : GetChunksRequest) (r r' : Nat) :
    (c.selectPeerForRequest request r).isSome = (c.selectPeerForRequest request r').isSome := by
  unfold selectPeerForRequest
  dsimp only
  split
  · rfl
  · rename_i h
    have hne := List.ne_nil_of_length_pos (Nat.pos_of_ne_zero h)
    rw [isSome_choose hne r, isSome_choose hne r']

theorem peerState_of_selectPeerForRequest {c : SerialSyncController P} {request : GetChunksRequest} {r : Nat}
    {peerId : P} (h : c.selectPeerForRequest request r = some peerId) : c.peers.peerState peerId = some .connected := by
  unfold selectPeerForRequest at h
  dsimp only at h
  split at h
  · nomatch h
  · obtain ⟨info, hl, hs⟩ := mem_filterPeers.mp (List.mem_filter.mp (mem_of_choose h)).1
    rw [peerState, hl]
    simpa using hs

/-- Whether `try_request_next` finds a peer for the next request: a
connected peer whose shard holds its first segment, whatever the draw. -/
def canRequest (env : Env P) (c : SerialSyncController P) : Bool :=
  (c.selectPeerForRequest ⟨c.nextChunk, min (c.nextChunk + poraChunkSize) c.goal.indexEnd, env.nextTxSeq - 1⟩ 0).isSome

/-- Connected peers that cover every shard hold the next request's
segment. -/
theorem canRequest_of_allShardsAvailable {env : Env P} {c : SerialSyncController P}
    (h : c.peers.allShardsAvailable [.connected] = true) : c.canRequest env = true := by
  obtain ⟨k, info, hl, hs, -, hr⟩ :=
    (allShardsAvailable_iff_covers c.peers [.connected]).mp h (sectorToSegment (c.nextChunk + c.txStartChunkInFlow))
  unfold canRequest selectPeerForRequest
  dsimp only
  split
  · rename_i h0
    rw [List.length_eq_zero_iff, List.filter_eq_nil_iff] at h0
    have := h0 k (mem_filterPeers.mpr ⟨info, hl, hs⟩)
    simp [SyncPeers.shardConfig, hl, hr] at this
  · rename_i h0
    exact isSome_choose (List.ne_nil_of_length_pos (Nat.pos_of_ne_zero h0)) 0

/-- `try_request_next`: a wait while the bandwidth is over its limit, `Idle`
when no peer holds the next chunks, or a download from a connected one. -/
theorem tryRequestNext_cases (env : Env P) (c : SerialSyncController P) (draw : Nat) :
    (c.config.maxBandwidthBytes > 0 ∧ env.bandwidthRate > c.config.maxBandwidthBytes ∧
        (c.tryRequestNext env draw).1 = { c with state := .awaitingDownload (env.now + c.config.bandwidthWaitTimeout) }) ∨
      (c.canRequest env = false ∧ (c.tryRequestNext env draw).1 = { c with state := .idle }) ∨
      ∃ peerId, c.peers.peerState peerId = some .connected ∧
        (c.tryRequestNext env draw).1 =
          { c with state := .downloading peerId c.nextChunk (min (c.nextChunk + poraChunkSize) c.goal.indexEnd) env.now } := by
  unfold tryRequestNext
  dsimp only
  split
  · rename_i h
    exact .inl ⟨h.1, h.2, rfl⟩
  · split
    · rename_i hsel
      refine .inr (.inl ⟨?_, rfl⟩)
      rw [canRequest, isSome_selectPeerForRequest c _ 0 (env.rng draw), hsel]
      rfl
    · rename_i peerId hsel
      exact .inr (.inr ⟨peerId, peerState_of_selectPeerForRequest hsel, rfl⟩)

/-- `handle_response_failure`: a retry after a wait, or a ban. -/
theorem handleResponseFailure_cases (env : Env P) (c : SerialSyncController P) (peerId : P) (reason : String) :
    (c.failures + 1 ≤ c.config.maxRequestFailures ∧
        (c.handleResponseFailure env peerId reason).1 =
          { c with failures := c.failures + 1,
                   state := .awaitingDownload (env.now + c.config.peerNextChunksRequestWaitTimeout) }) ∨
      (c.handleResponseFailure env peerId reason).1 =
        { c with failures := c.failures + 1, state := .idle,
                 peers := (c.peers.updateState peerId .connected .disconnecting env.now).2 } := by
  unfold handleResponseFailure
  dsimp only
  split
  · rename_i h
    exact .inl ⟨h, rfl⟩
  · exact .inr rfl

/-! ### The measure of a turn -/

/-- The rank of a state: where a turn takes it when no count above moves.
A state whose guard does not hold is ranked above `Idle`, where it goes. -/
def rank (env : Env P) (c : SerialSyncController P) : Nat :=
  match c.state with
  | .completed | .failed _ => 0
  | .awaitingDownload since => if env.now < since then 1 else if c.canRequest env then 3 else 12
  | .downloading peerId _ _ _ => if c.peers.peerState peerId = some .connected then 2 else 11
  | .connectingPeers => if c.peers.allShardsAvailable [.connecting, .connected] then 4 else 13
  | .foundPeers => if c.peers.allShardsAvailable [.found, .connecting, .connected] then 5 else 14
  | .findingPeers _ => 6
  | .idle => 7
  | .awaitingOutgoingConnection _ => 8

/-- The five counts a turn takes down, the first that moves deciding: the
pending announcements, the peers found, connecting or connected, the peers
found, the failures left before a ban, and the rank. -/
def measure (env : Env P) (c : SerialSyncController P) : Nat × Nat × Nat × Nat × Nat :=
  ((c.peers.pending env.announcements env.peerConfig).card, c.peers.countIn [.found, .connecting, .connected],
    c.peers.countIn [.found], c.config.maxRequestFailures + 1 - c.failures, rank env c)

end SerialSyncController

/-- The lexicographic order on five counts. -/
def Decreases (m m' : Nat × Nat × Nat × Nat × Nat) : Prop :=
  Prod.Lex (· < ·) (Prod.Lex (· < ·) (Prod.Lex (· < ·) (Prod.Lex (· < ·) (· < ·)))) m m'

theorem decreases_wf : WellFounded Decreases :=
  WellFounded.prod_lex Nat.lt_wfRel.wf (WellFounded.prod_lex Nat.lt_wfRel.wf
    (WellFounded.prod_lex Nat.lt_wfRel.wf (WellFounded.prod_lex Nat.lt_wfRel.wf Nat.lt_wfRel.wf)))

/-- A decrease built a count at a time: none grows before one goes down. -/
theorem decreases_of_le {d a f b r d' a' f' b' r' : Nat} (hd : d' ≤ d) (ha : d' = d → a' ≤ a)
    (hf : d' = d → a' = a → f' ≤ f) (hb : d' = d → a' = a → f' = f → b' ≤ b)
    (hr : d' = d → a' = a → f' = f → b' = b → r' < r) : Decreases (d', a', f', b', r') (d, a, f, b, r) :=
  Prod.Lex.of_le hd fun h₁ => Prod.Lex.of_le (ha h₁) fun h₂ => Prod.Lex.of_le (hf h₁ h₂) fun h₃ =>
    Prod.Lex.of_le (hb h₁ h₂ h₃) fun h₄ => hr h₁ h₂ h₃ h₄

namespace SerialSyncController

variable {P : Type} [DecidableEq P] {env : Env P}

open SyncPeers

/-- A turn that keeps the peers, the failures and the configuration goes
down when it lowers the rank. -/
theorem decreases_of_rank {c c' : SerialSyncController P} (hconf : c'.config = c.config)
    (hfail : c'.failures = c.failures) (hpeers : ∀ k, c'.peers.peers.lookup k = c.peers.peers.lookup k)
    (hr : rank env c' < rank env c) : Decreases (measure env c') (measure env c) := by
  have hD : c'.peers.pending env.announcements env.peerConfig = c.peers.pending env.announcements env.peerConfig :=
    pending_congr fun k => by rw [hpeers k]
  unfold measure
  rw [hD, countIn_congr hpeers, countIn_congr hpeers, hconf, hfail]
  exact decreases_of_le le_rfl (fun _ => le_rfl) (fun _ _ => le_rfl) (fun _ _ _ => le_rfl) fun _ _ _ _ => hr

/-- A turn that only sets the state goes down when it lowers the rank. -/
theorem decreases_of_state {c : SerialSyncController P} {state : SyncState P}
    (hr : rank env { c with state := state } < rank env c) : Decreases (measure env { c with state := state }) (measure env c) :=
  decreases_of_rank rfl rfl (fun _ => rfl) hr

/-! ### Every turn that goes on goes down -/

section Turns

variable {s : SerialSyncController P × List (Effect P)}

theorem decreases_idle (hs : s.1.state = .idle) :
    Decreases (measure env (transitionStep env s).1.1) (measure env s.1) := by
  rw [transitionStep_idle hs]
  by_cases ha : s.1.peers.allShardsAvailable [.found, .connecting, .connected] = true
  · rw [if_pos ha]
    exact decreases_of_state (by simp [rank, hs, ha])
  · -- `try_find_peers` enters announced peers, or changes none of them
    rw [if_neg ha]
    obtain ⟨henters, hconf, hfail, hst⟩ := tryFindPeers_spec env s.1
    rcases henters.card_pending with hlt | hsame
    · exact Prod.Lex.left _ _ hlt
    · exact decreases_of_rank hconf hfail hsame (by simp [rank, hs, hst])

theorem decreases_findingPeers {since : Nat} (hs : s.1.state = .findingPeers since)
    (hd : (transitionStep env s).2 = false) :
    Decreases (measure env (transitionStep env s).1.1) (measure env s.1) := by
  rw [transitionStep_findingPeers hs] at hd ⊢
  by_cases ha : s.1.peers.allShardsAvailable [.found, .connecting, .connected] = true
  · rw [if_pos ha]
    exact decreases_of_state (by simp [rank, hs, ha])
  · -- every other branch ends the loop
    rw [if_neg ha] at hd
    split at hd
    · split at hd <;> nomatch hd
    · nomatch hd

theorem decreases_foundPeers (hs : s.1.state = .foundPeers) :
    Decreases (measure env (transitionStep env s).1.1) (measure env s.1) := by
  rw [transitionStep_foundPeers hs]
  by_cases hc : s.1.peers.allShardsAvailable [.connecting, .connected] = true
  · rw [if_pos hc]
    have hr : rank env { s.1 with state := .connectingPeers } = 4 := by simp [rank, hc]
    have hr' : 5 ≤ rank env s.1 := by
      simp only [rank, hs]
      split <;> omega
    exact decreases_of_state (by rw [hr]; omega)
  · rw [if_neg hc]
    rcases tryConnect_cases env s.1 s.2.length (Bool.eq_false_iff.mpr hc) with ⟨hnone, heq⟩ | ⟨hdials, hlt⟩
    · -- no peer is found: the guard of `FoundPeers` did not hold, and it goes `Idle`
      rw [heq]
      have hF : s.1.peers.allShardsAvailable [.found, .connecting, .connected] = false :=
        Bool.eq_false_iff.mpr fun h => hc (allShardsAvailable_of_no_found hnone h)
      exact decreases_of_state (by simp [rank, hs, hF])
    · -- a peer is dialled: one less is found, and the counts before stay
      have hD : ((s.1.tryConnect env s.2.length).1.peers.pending env.announcements env.peerConfig).card =
          (s.1.peers.pending env.announcements env.peerConfig).card := by
        rw [pending_congr hdials.configs]
      exact decreases_of_le hD.le (fun _ => hdials.active.le) (fun _ _ => hlt.le) (fun _ _ h => absurd h hlt.ne)
        fun _ _ h => absurd h hlt.ne

theorem decreases_connectingPeers (hs : s.1.state = .connectingPeers) (hd : (transitionStep env s).2 = false) :
    Decreases (measure env (transitionStep env s).1.1) (measure env s.1) := by
  rw [transitionStep_connectingPeers hs] at hd ⊢
  by_cases hcd : s.1.peers.allShardsAvailable [.connected] = true
  · rw [if_pos hcd]
    have hcan : canRequest env { s.1 with state := .awaitingDownload env.now } = true :=
      canRequest_of_allShardsAvailable hcd
    have hr : rank env { s.1 with state := .awaitingDownload env.now } = 3 := by simp [rank, hcan]
    have hr' : 4 ≤ rank env s.1 := by
      simp only [rank, hs]
      split <;> omega
    exact decreases_of_state (by rw [hr]; omega)
  · rw [if_neg hcd] at hd ⊢
    by_cases hcc : s.1.peers.allShardsAvailable [.connecting, .connected] = true
    · rw [if_neg (by simp [hcc])] at hd
      nomatch hd
    · rw [if_pos (by simp [hcc])]
      exact decreases_of_state (by simp [rank, hs, hcc])

theorem decreases_awaitingOutgoingConnection {since : Nat} (hs : s.1.state = .awaitingOutgoingConnection since)
    (hd : (transitionStep env s).2 = false) :
    Decreases (measure env (transitionStep env s).1.1) (measure env s.1) := by
  rw [transitionStep_awaitingOutgoingConnection hs] at hd ⊢
  by_cases ht : env.now - since < s.1.config.peerWaitOutgoingConnectionTimeout
  · rw [if_pos ht] at hd
    nomatch hd
  · rw [if_neg ht]
    exact decreases_of_state (by simp [rank, hs])

theorem decreases_awaitingDownload {since : Nat}
    (hbw : 0 < s.1.config.maxBandwidthBytes → s.1.config.maxBandwidthBytes < env.bandwidthRate →
      0 < s.1.config.bandwidthWaitTimeout)
    (hs : s.1.state = .awaitingDownload since) (hd : (transitionStep env s).2 = false) :
    Decreases (measure env (transitionStep env s).1.1) (measure env s.1) := by
  rw [transitionStep_awaitingDownload hs] at hd ⊢
  by_cases hlt : env.now < since
  · rw [if_pos hlt] at hd
    nomatch hd
  · rw [if_neg hlt]
    have hdue : 3 ≤ rank env s.1 := by
      simp only [rank, hs, hlt, if_false]
      split <;> omega
    rcases tryRequestNext_cases env s.1 s.2.length with ⟨hmax, hrate, heq⟩ | ⟨hcan, heq⟩ | ⟨peerId, hp, heq⟩
    · rw [heq]
      have hwait := hbw hmax hrate
      have hr : rank env { s.1 with state := .awaitingDownload (env.now + s.1.config.bandwidthWaitTimeout) } = 1 := by
        simp [rank, hwait]
      exact decreases_of_state (by rw [hr]; omega)
    · rw [heq]
      exact decreases_of_state (by simp [rank, hs, hlt, hcan])
    · rw [heq]
      have hr : rank env { s.1 with
          state := .downloading peerId s.1.nextChunk (min (s.1.nextChunk + poraChunkSize) s.1.goal.indexEnd) env.now } =
          2 := by
        simp [rank, hp]
      exact decreases_of_state (by rw [hr]; omega)

theorem decreases_downloading {peerId : P} {fromChunk toChunk since : Nat}
    (hs : s.1.state = .downloading peerId fromChunk toChunk since) (hd : (transitionStep env s).2 = false) :
    Decreases (measure env (transitionStep env s).1.1) (measure env s.1) := by
  rw [transitionStep_downloading hs] at hd ⊢
  by_cases hp : s.1.peers.peerState peerId ≠ some .connected
  · rw [if_pos hp]
    exact decreases_of_state (by simp [rank, hs, hp])
  · rw [if_neg hp] at hd ⊢
    have hp' : s.1.peers.peerState peerId = some .connected := not_not.mp hp
    by_cases ht : s.1.config.peerChunksDownloadTimeout ≤ env.now - since
    · rw [if_pos ht]
      rcases handleResponseFailure_cases env s.1 peerId "RPC timeout" with ⟨hle, heq⟩ | heq
      · -- a retry: one failure less is left before a ban
        rw [heq]
        exact decreases_of_le le_rfl (fun _ => le_rfl) (fun _ _ => le_rfl) (fun _ _ _ => by dsimp only; omega)
          fun _ _ _ h => by dsimp only at h; omega
      · -- a ban: the peer leaves the peers found, connecting or connected
        rw [heq]
        have hA : (s.1.peers.updateState peerId .connected .disconnecting env.now).2.countIn
            [.found, .connecting, .connected] < s.1.peers.countIn [.found, .connecting, .connected] :=
          countIn_updateState_lt env.now hp' (by simp) (by simp)
        have hD : ((s.1.peers.updateState peerId .connected .disconnecting env.now).2.pending env.announcements
            env.peerConfig).card = (s.1.peers.pending env.announcements env.peerConfig).card := by
          rw [pending_updateState]
        exact decreases_of_le hD.le (fun _ => hA.le) (fun _ h => absurd h hA.ne) (fun _ h => absurd h hA.ne)
          fun _ h => absurd h hA.ne
    · rw [if_neg ht] at hd
      nomatch hd

/-- Every turn that does not end the loop goes down. -/
theorem decreases_transitionStep
    (hbw : 0 < s.1.config.maxBandwidthBytes → s.1.config.maxBandwidthBytes < env.bandwidthRate →
      0 < s.1.config.bandwidthWaitTimeout)
    (hd : (transitionStep env s).2 = false) :
    Decreases (measure env (transitionStep env s).1.1) (measure env s.1) := by
  cases hs : s.1.state with
  | idle => exact decreases_idle hs
  | findingPeers since => exact decreases_findingPeers hs hd
  | foundPeers => exact decreases_foundPeers hs
  | connectingPeers => exact decreases_connectingPeers hs hd
  | awaitingOutgoingConnection since => exact decreases_awaitingOutgoingConnection hs hd
  | awaitingDownload since => exact decreases_awaitingDownload hbw hs hd
  | downloading peerId fromChunk toChunk since => exact decreases_downloading hs hd
  | completed =>
    rw [transitionStep_of_isCompletedOrFailed (by rw [isCompletedOrFailed, hs])] at hd
    nomatch hd
  | failed reason =>
    rw [transitionStep_of_isCompletedOrFailed (by rw [isCompletedOrFailed, hs])] at hd
    nomatch hd

/-! ### Where the loop stops -/

/-- The states `transition` returns in: each waits on a timer, a peer or a
response, and none is `Idle`, `FoundPeers` or a download that is due. -/
def Rests (env : Env P) (c : SerialSyncController P) : Prop :=
  match c.state with
  | .idle | .foundPeers => False
  | .connectingPeers =>
    c.peers.allShardsAvailable [.connecting, .connected] = true ∧ c.peers.allShardsAvailable [.connected] = false
  | .awaitingOutgoingConnection since => env.now - since < c.config.peerWaitOutgoingConnectionTimeout
  | .awaitingDownload since => env.now < since
  | .downloading peerId _ _ since =>
    c.peers.peerState peerId = some .connected ∧ env.now - since < c.config.peerChunksDownloadTimeout
  | .findingPeers _ | .completed | .failed _ => True

instance (env : Env P) (c : SerialSyncController P) : Decidable (Rests env c) := by
  unfold Rests
  split <;> infer_instance

/-- A turn that ends the loop leaves it resting. -/
theorem rests_of_done (hd : (transitionStep env s).2 = true) : Rests env (transitionStep env s).1.1 := by
  cases hs : s.1.state with
  | idle =>
    rw [transitionStep_idle hs] at hd
    split at hd <;> nomatch hd
  | findingPeers since =>
    rw [transitionStep_findingPeers hs] at hd ⊢
    by_cases ha : s.1.peers.allShardsAvailable [.found, .connecting, .connected] = true
    · rw [if_pos ha] at hd
      nomatch hd
    · rw [if_neg ha]
      -- a timeout fails the sync or searches again; before it, the search waits
      split
      · split
        · simp [Rests]
        · simp [Rests, (tryFindPeers_spec env s.1).2.2.2]
      · simp [Rests, hs]
  | foundPeers =>
    rw [transitionStep_foundPeers hs] at hd
    split at hd <;> nomatch hd
  | connectingPeers =>
    rw [transitionStep_connectingPeers hs] at hd ⊢
    by_cases hcd : s.1.peers.allShardsAvailable [.connected] = true
    · rw [if_pos hcd] at hd
      nomatch hd
    · rw [if_neg hcd] at hd ⊢
      by_cases hcc : s.1.peers.allShardsAvailable [.connecting, .connected] = true
      · rw [if_neg (by simp [hcc])]
        simp [Rests, hs, hcc, hcd]
      · rw [if_pos (by simp [hcc])] at hd
        nomatch hd
  | awaitingOutgoingConnection since =>
    rw [transitionStep_awaitingOutgoingConnection hs] at hd ⊢
    by_cases ht : env.now - since < s.1.config.peerWaitOutgoingConnectionTimeout
    · rw [if_pos ht]
      simp [Rests, hs, ht]
    · rw [if_neg ht] at hd
      nomatch hd
  | awaitingDownload since =>
    rw [transitionStep_awaitingDownload hs] at hd ⊢
    by_cases hlt : env.now < since
    · rw [if_pos hlt]
      simp [Rests, hs, hlt]
    · rw [if_neg hlt] at hd
      nomatch hd
  | downloading peerId fromChunk toChunk since =>
    rw [transitionStep_downloading hs] at hd ⊢
    by_cases hp : s.1.peers.peerState peerId ≠ some .connected
    · rw [if_pos hp] at hd
      nomatch hd
    · rw [if_neg hp] at hd ⊢
      by_cases ht : s.1.config.peerChunksDownloadTimeout ≤ env.now - since
      · rw [if_pos ht] at hd
        nomatch hd
      · rw [if_neg ht]
        simp only [Rests, hs]
        exact ⟨not_not.mp hp, Nat.lt_of_not_le ht⟩
  | completed =>
    rw [transitionStep_of_isCompletedOrFailed (by rw [isCompletedOrFailed, hs])]
    simp [Rests, hs]
  | failed reason =>
    rw [transitionStep_of_isCompletedOrFailed (by rw [isCompletedOrFailed, hs])]
    simp [Rests, hs]

end Turns

/-- `transition` returns: with enough turns its loop stops, and where it
rests. The one condition is that a bandwidth limit, when it can bite, waits
for some time. -/
theorem transition_returns (env : Env P) (c : SerialSyncController P)
    (hbw : 0 < c.config.maxBandwidthBytes → c.config.maxBandwidthBytes < env.bandwidthRate →
      0 < c.config.bandwidthWaitTimeout) :
    ∃ fuel c' effs, c.transition env fuel = some (c', effs) ∧ Rests env c' := by
  -- the configuration stays, and the turns go down in the five counts
  have hstep : ∀ s : SerialSyncController P × List (Effect P), s.1.config = c.config →
      (transitionStep env s).2 = false →
      (transitionStep env s).1.1.config = c.config ∧
        Decreases (measure env (transitionStep env s).1.1) (measure env s.1) := by
    intro s hconf hd
    obtain ⟨_, _, hq⟩ := quietStep_transitionStep env s
    exact ⟨hq.sameTask.config.trans hconf, decreases_transitionStep (by rw [hconf]; exact hbw) hd⟩
  obtain ⟨fuel, ⟨c', effs⟩, hrun, hrests⟩ := WhileLoop.exists_run_of_variant decreases_wf
    (fun s => measure env s.1) (fun s => s.1.config = c.config) (fun s => Rests env s.1)
    (fun _ _ hd => rests_of_done hd) hstep
    ({ c with peers := (c.peers.transition env.now).1 }, (c.peers.transition env.now).2) rfl
  exact ⟨fuel, c', effs, hrun, hrests⟩

theorem transition_returns_new :
    ∃ fuel c' effs, (new Config.default ⟨0, H256.zero⟩ 0 ⟨1, 0, 1, true⟩ : SerialSyncController Nat).transition
      ⟨0, ⟨1, 0⟩, 1, fun _ => none, [], 0, fun _ => 0⟩ fuel = some (c', effs) ∧
      Rests ⟨0, ⟨1, 0⟩, 1, fun _ => none, [], 0, fun _ => 0⟩ c' :=
  transition_returns _ _ fun h => absurd h (by decide)

end SerialSyncController

end Sync

end ZgStorage
